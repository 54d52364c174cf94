/-
What happens to the objects of a graph while calls on it follow one another.

A history starts from an empty graph and goes on with declarations, compiles and runs (`Graph.Runs`). Each compile may
have another device, which may refuse anything. With the graph go the declarations so far and the create calls so far,
each with the resource it was for.

- `extends_compile`, `keeps_declare`: a compile gives the resources without an object what is made for them, whether it
  succeeds or not, and nothing else changes an object (`Registry.Extends`).
- `Runs.allocatedOnce`: so the create calls of a whole history are for different resources, refused ones apart.
- `Runs.backing_kept`: a resource keeps its object.
-/
import FrameGraph.Proofs.Recompiling

namespace FrameGraph

variable {k : ResourceKind} {σ : Type}

/-! ## Histories -/

/-- a call that declares something -/
inductive Declaration where
  | create (k : ResourceKind) (d : k.Descriptor)
  | importNative (k : ResourceKind) (native : Nat) (d : k.Descriptor) (s : ResourceState)
  | exportState (h : AnyHandle) (s : ResourceState)
  | addPass (name : String) (kind : PassKind) (setup : List SetupCall) (callback : Nat → List Action)

namespace Graph

/-- the graph after a declaration -/
def declare (g : Graph) : Declaration → Graph
  | .create _ d => (g.create d).1
  | .importNative _ native d s => (g.importNative native d s).1
  | .exportState h s => g.exportState h s
  | .addPass name kind setup callback => (g.addPass name kind setup callback).1

/-- the graphs that calls lead to without clearing in between, each with the declarations and the create calls so far;
every compile has a device of its own, which may refuse anything -/
inductive Runs (g : Graph) : List Declaration → List (Key × CreateCall) → Graph → Prop
  | start : Runs g [] [] g
  | declare {ds : List Declaration} {calls : List (Key × CreateCall)} {g' : Graph} (d : Declaration) :
    Runs g ds calls g' → Runs g (ds ++ [d]) calls (g'.declare d)
  | compile {ds : List Declaration} {calls : List (Key × CreateCall)} {g' g'' : Graph} {σ : Type} {dev : Device σ}
    {s s' : σ} {answer : Except AllocationError Stats} :
    Runs g ds calls g' → g'.compile dev s = .ok (g'', answer, s') → Runs g ds (calls ++ g'.creations dev s) g''
  | afterRun {ds : List Declaration} {calls : List (Key × CreateCall)} {g' : Graph} :
    Runs g ds calls g' → Runs g ds calls g'.afterRun

variable {g g' : Graph} {ds : List Declaration} {calls : List (Key × CreateCall)}

theorem Built.declare (h : g.Built) (d : Declaration) : (g.declare d).Built := by
  cases d with
  | create k d => exact h.create k d
  | importNative k native d s => exact h.importNative k native d s
  | exportState handle s => exact h.exportState handle s
  | addPass name kind setup callback => exact h.addPass name kind setup callback

theorem Runs.built (h : g.Runs ds calls g') (hg : g.Built) : g'.Built := by
  induction h with
  | start => exact hg
  | declare d _ ih => exact ih.declare d
  | compile _ hc ih => exact ih.compile hc
  | afterRun _ ih => exact ih.afterRun

end Graph

/-! ## Objects that are kept -/

/-- what names a resource and does not change -/
def Resource.identity (r : Resource k) : String × k.Descriptor × Bool := (r.name, r.descriptor, r.imported)

theorem Resource.identity_eq_iff {r r' : Resource k} :
    r'.identity = r.identity ↔ r'.name = r.name ∧ r'.descriptor = r.descriptor ∧ r'.imported = r.imported := by
  rw [identity, identity, Prod.mk.injEq, Prod.mk.injEq]

namespace Registry

variable {g g' g'' : Registry} {made : Key → Option Allocation}

/-- the records are still there, those without an object have been given one if one was made for them, and new ones have
none unless they are imported -/
structure Extends (g : Registry) (made : Key → Option Allocation) (g' : Registry) : Prop where
  kept : ∀ key r, g.record? key = some r → ∃ r', g'.record? key = some r' ∧ r'.identity = r.identity ∧
    r'.backing = r.backing.or (made key)
  new : ∀ key r', g'.record? key = some r' → g.record? key = none → r'.imported = false → r'.backing = none

/-- nothing was made -/
abbrev Keeps (g g' : Registry) : Prop := g.Extends (fun _ => none) g'

theorem getElem?_of_map {α β : Type} {as bs : List α} {q : α → β} (h : bs.map q = as.map q) (n : Nat) {a : α}
    (ha : as[n]? = some a) : ∃ b, bs[n]? = some b ∧ q b = q a := by
  have hn := congrArg (·[n]?) h
  simp only [List.getElem?_map, ha, Option.map_some] at hn
  exact Option.map_eq_some_iff.1 hn

/-- changes of records that leave their objects alone -/
theorem keeps_of_map (h : ∀ k, (g'.get k).map (fun r => (r.identity, r.backing)) =
    (g.get k).map fun r => (r.identity, r.backing)) : g.Keeps g' where
  kept := fun key r hr => by
    obtain ⟨r', hr', e⟩ := getElem?_of_map (h key.kind) key.index hr
    obtain ⟨hi, hb⟩ := Prod.mk.inj e
    exact ⟨r', hr', hi, by rw [hb, Option.or_none]⟩
  new := fun key r' hr' hnone => by
    obtain ⟨r, hr, -⟩ := getElem?_of_map (h key.kind).symm key.index hr'
    rw [record?] at hnone
    rw [hnone] at hr
    cases hr

theorem Extends.keeps (h : g.Extends made g') (h' : g'.Keeps g'') : g.Extends made g'' where
  kept := fun key r hr => by
    obtain ⟨r', hr', hi, hb⟩ := h.kept key r hr
    obtain ⟨r'', hr'', hi', hb'⟩ := h'.kept key r' hr'
    exact ⟨r'', hr'', hi'.trans hi, by rw [hb', Option.or_none, hb]⟩
  new := fun key r'' hr'' hnone himported => by
    cases hr' : g'.record? key with
    | none => exact h'.new key r'' hr'' hr' himported
    | some r' =>
      obtain ⟨q, hq, hi, hb⟩ := h'.kept key r' hr'
      rw [hr''] at hq
      cases hq
      have hi' : r'.imported = false := (Resource.identity_eq_iff.1 hi).2.2.symm.trans himported
      rw [hb, h.new key r' hr' hnone hi']
      rfl

/-- a record of a registry with one more is an old one or the new one -/
theorem of_getElem?_register {P : (k : ResourceKind) → Resource k → Prop} {r : Nat → Resource k} (hr : ∀ i, P k (r i))
    {kind : ResourceKind} {n : Nat} {q : Resource kind} (hq : ((g.register r).1.get kind)[n]? = some q) :
    (g.get kind)[n]? = some q ∨ P kind q := by
  have hsame : ∀ {rs : List (Resource k)} {q : Resource k}, (rs ++ [r rs.length])[n]? = some q →
      rs[n]? = some q ∨ P k q := by
    intro rs q hq
    rw [List.getElem?_append] at hq
    split at hq
    · exact Or.inl hq
    · rw [List.mem_singleton.1 (List.mem_of_getElem? hq)]
      exact Or.inr (hr _)
  cases k <;> cases kind
  · exact hsame hq
  · exact Or.inl hq
  · exact Or.inl hq
  · exact hsame hq

theorem keeps_register (g : Registry) {r : Nat → Resource k} (hr : ∀ i, (r i).imported = false → (r i).backing = none) :
    g.Keeps (g.register r).1 where
  kept := fun key q hq => by
    refine ⟨q, ?_, rfl, Option.or_none.symm⟩
    have hlt := (List.getElem?_eq_some_iff.1 hq).1
    obtain ⟨kind, index⟩ := key
    cases k <;> cases kind
    · exact (List.getElem?_append_left hlt).trans hq
    · exact hq
    · exact hq
    · exact (List.getElem?_append_left hlt).trans hq
  new := fun key q hq hnone => by
    rcases of_getElem?_register (P := fun _ q => q.imported = false → q.backing = none) hr hq with hold | hnew
    · rw [record?, hold] at hnone
      cases hnone
    · exact hnew

theorem keeps_mapRecords (g : Registry) (f : (k : ResourceKind) → Nat → Resource k → Resource k)
    (hf : ∀ k n (r : Resource k), ((f k n r).identity, (f k n r).backing) = (r.identity, r.backing)) :
    g.Keeps (g.mapRecords f) :=
  keeps_of_map fun k => map_mapRecords (hf k) g

theorem keeps_create (g : Registry) (d : k.Descriptor) : g.Keeps (g.create d).1 := g.keeps_register fun _ _ => rfl

theorem keeps_importNative (g : Registry) (native : Nat) (d : k.Descriptor) (s : ResourceState) :
    g.Keeps (g.importNative native d s).1 :=
  g.keeps_register fun _ himported => Bool.noConfusion himported

theorem keeps_export {key : Key} {s : ResourceState} (he : g.export? key s = some g') : g.Keeps g' := by
  obtain ⟨kind, index⟩ := key
  unfold export? at he
  split at he
  · cases he
    refine keeps_of_map fun k => ?_
    have hmodify : ∀ rs : List (Resource kind),
        (rs.modify index fun r => { r with exported := some s }).map (fun r => (r.identity, r.backing)) =
          rs.map fun r => (r.identity, r.backing) := by
      intro rs
      refine List.ext_getElem? fun n => ?_
      rw [List.getElem?_map, List.getElem?_map, List.getElem?_modify, Option.map_eq_map, Option.map_map]
      refine Option.map_congr fun r _ => ?_
      simp only [Function.comp]
      split <;> rfl
    cases kind <;> cases k
    · exact hmodify _
    · rfl
    · rfl
    · exact hmodify _
  · cases he

theorem keeps_setup (g : Registry) (kind : PassKind) (calls : List SetupCall) :
    g.Keeps (Setup.run kind g calls).1 := by
  induction calls generalizing g with
  | nil => exact keeps_of_map fun _ => rfl
  | cons call rest ih =>
    have hstep : g.Keeps (Setup.reply kind g call).1 := by
      cases call with
      | create k d => exact g.keeps_create d
      | access _ _ _ => exact keeps_of_map fun _ => rfl
      | writeDepth _ => exact keeps_of_map fun _ => rfl
      | readDepth _ => exact keeps_of_map fun _ => rfl
      | kind => exact keeps_of_map fun _ => rfl
    exact hstep.keeps (ih _)

end Registry

/-! ## What a compile creates -/

theorem madeFor_append (calls more : List (Key × CreateCall)) (key : Key) :
    madeFor (calls ++ more) key = (madeFor calls key).or (madeFor more key) := List.findSome?_append

/-- no call, no object -/
theorem madeFor_eq_none {calls : List (Key × CreateCall)} {key : Key} (h : ∀ c ∈ calls, c.1 ≠ key) :
    madeFor calls key = none :=
  List.findSome?_eq_none_iff.2 fun c hc => if_neg (h c hc)

theorem madeFor_cons_self (key : Key) (c : CreateCall) (calls : List (Key × CreateCall)) :
    madeFor ((key, c) :: calls) key = c.answer.toOption.or (madeFor calls key) := by
  rw [madeFor, List.findSome?_cons, if_pos rfl]
  cases c.answer.toOption <;> rfl

/-- nothing is made in a call that is refused -/
theorem madeFor_refused {first key : Key} {c : CreateCall} {e : DeviceError} (hc : c.answer = .error e) :
    madeFor [(first, c)] key = none := by
  rw [madeFor, List.findSome?_singleton, hc]
  split <;> rfl

theorem madeFor_cons_of_ne {c : Key × CreateCall} {calls : List (Key × CreateCall)} {key : Key} (h : c.1 ≠ key) :
    madeFor (c :: calls) key = madeFor calls key := by
  rw [madeFor, List.findSome?_cons, if_neg h]
  rfl

namespace Resource

/-- a record that had an object keeps it, and one that needs one gets the one made for it -/
theorem backing_backAll (dev : Device σ) (s : σ) {rs : List (Resource k)} (start : Nat) {i : Nat} {r : Resource k}
    (hr : rs[i]? = some r) :
    ∃ r', (backAll dev s rs).1[i]? = some r' ∧ r'.identity = r.identity ∧
      r'.backing = r.backing.or (madeFor ((missing start rs).zip (dev.ask s (wanted rs)).1) ⟨k, start + i⟩) := by
  induction rs generalizing s start i with
  | nil => cases hr
  | cons q rs ih =>
    have hkey : ∀ i, (⟨k, start⟩ : Key) ≠ ⟨k, start + (i + 1)⟩ := fun i e => by
      have := (Key.mk.inj e).2
      omega
    by_cases hu : q.unbacked = true
    · have hwanted : wanted (q :: rs) = (q.name, ⟨k, q.descriptor⟩) :: wanted rs := by
        rw [wanted, List.filter_cons_of_pos hu]
        rfl
      rw [missing_cons, if_pos hu, hwanted, backAll, Resource.back, if_pos hu]
      obtain ⟨answer, s', ha⟩ : ∃ answer s', dev.respond s ⟨k, q.descriptor⟩ = (answer, s') := ⟨_, _, rfl⟩
      cases answer with
      | ok a =>
        rw [ha, Device.ask_cons_ok ha, List.zip_cons_cons]
        cases i with
        | zero =>
          cases hr
          have hnone : r.backing = none := by
            rw [unbacked, Bool.and_eq_true, Option.isNone_iff_eq_none] at hu
            exact hu.2
          refine ⟨_, rfl, rfl, ?_⟩
          rw [hnone, Option.none_or]
          exact (madeFor_cons_self ⟨k, start⟩ ⟨⟨k, r.descriptor⟩, r.name, .ok a⟩ _).symm
        | succ i =>
          obtain ⟨r', hr', hid, hb⟩ := ih s' (start + 1) hr
          refine ⟨r', hr', hid, ?_⟩
          rw [madeFor_cons_of_ne (hkey i), hb, Nat.add_right_comm, Nat.add_assoc]
      | error e =>
        -- nothing is created from here on
        rw [ha, Device.ask_cons_error ha, List.zip_cons_cons, List.zip_nil_right, madeFor_refused rfl, Option.or_none]
        exact ⟨r, hr, rfl, rfl⟩
    · have hwanted : wanted (q :: rs) = wanted rs := by rw [wanted, List.filter_cons_of_neg hu, wanted]
      rw [missing_cons, if_neg hu, hwanted, backAll, back_of_backed (Bool.eq_false_iff.2 hu)]
      cases i with
      | zero =>
        cases hr
        refine ⟨_, rfl, rfl, ?_⟩
        rw [madeFor_eq_none fun c hc e => ?_, Option.or_none]
        · rfl
        · have hle := (mem_missing (List.of_mem_zip hc).1).2
          rw [e] at hle
          exact Nat.lt_irrefl start hle
      | succ i =>
        obtain ⟨r', hr', hid, hb⟩ := ih s (start + 1) hr
        refine ⟨r', hr', hid, ?_⟩
        rw [hb, Nat.add_right_comm, Nat.add_assoc]

end Resource

namespace Graph

variable {g g' : Graph} {dev : Device σ} {s s' : σ} {answer : Except AllocationError Stats}

theorem zip_append_of_length_le {α β : Type} {as bs : List α} {cs : List β} (h : cs.length ≤ as.length) :
    (as ++ bs).zip cs = as.zip cs := by
  induction as generalizing cs with
  | nil =>
    obtain rfl := List.length_eq_zero_iff.1 (Nat.le_zero.1 h)
    rw [List.zip_nil_right, List.zip_nil_right]
  | cons a as ih =>
    cases cs with
    | nil => rw [List.zip_nil_right, List.zip_nil_right]
    | cons c cs => rw [List.cons_append, List.zip_cons_cons, List.zip_cons_cons, ih (Nat.le_of_succ_le_succ h)]

/-- of the calls for one kind, none makes an object of the other -/
theorem madeFor_zip_missing {kind : ResourceKind} {rs : List (Resource k)} {calls : List CreateCall} (h : kind ≠ k)
    (i : Nat) : madeFor ((Resource.missing 0 rs).zip calls) ⟨kind, i⟩ = none := by
  refine madeFor_eq_none fun c hc e => h ?_
  rw [← (Resource.mem_missing (List.of_mem_zip hc).1).1, e]

/-- if a texture is refused, the calls are those for the textures -/
theorem creations_of_refused {e : AllocationError}
    (he : refusal (dev.ask s (Resource.wanted g.registry.textures)).1 = some e) :
    g.creations dev s =
      (Resource.missing 0 g.registry.textures).zip (dev.ask s (Resource.wanted g.registry.textures)).1 := by
  have hlength : (dev.ask s (Resource.wanted g.registry.textures)).1.length ≤
      (Resource.missing 0 g.registry.textures).length := by
    rw [Resource.length_missing]
    exact Device.length_ask_le
  rw [creations, createCalls, Registry.missing, Registry.wanted, Device.ask_append_of_refused he,
    zip_append_of_length_le hlength]

/-- if no texture is refused, the calls for the buffers come after those for the textures -/
theorem creations_of_accepted (he : refusal (dev.ask s (Resource.wanted g.registry.textures)).1 = none) :
    g.creations dev s =
      (Resource.missing 0 g.registry.textures).zip (dev.ask s (Resource.wanted g.registry.textures)).1 ++
        (Resource.missing 0 g.registry.buffers).zip
          (dev.ask (dev.ask s (Resource.wanted g.registry.textures)).2 (Resource.wanted g.registry.buffers)).1 := by
  have haccepted : (Resource.missing 0 g.registry.textures).length =
      (dev.ask s (Resource.wanted g.registry.textures)).1.length := by
    rw [Resource.length_missing]
    refine (Device.length_ask_of_accepted fun c hc => ?_).symm
    exact List.findSome?_eq_none_iff.1 he c hc
  rw [creations, createCalls, Registry.missing, Registry.wanted, Device.ask_append_of_accepted he,
    List.zip_append haccepted]

/-- backing gives each record that has no object the one that is made for it, if any is -/
theorem backing_back (g : Graph) (dev : Device σ) (s : σ) (k : ResourceKind) (i : Nat) {r : Resource k}
    (hr : (g.registry.get k)[i]? = some r) :
    ∃ r', ((g.registry.back dev s).1.get k)[i]? = some r' ∧ r'.identity = r.identity ∧
      r'.backing = r.backing.or (madeFor (g.creations dev s) ⟨k, i⟩) := by
  obtain ⟨⟨textures, e, s₁⟩, ht⟩ : ∃ x, Resource.backAll dev s g.registry.textures = x := ⟨_, rfl⟩
  have hask := Resource.backAll_ask dev s g.registry.textures
  rw [ht] at hask
  obtain ⟨he, hs⟩ := Prod.mk.inj hask
  have htexture := fun (r : Resource .texture) (hr : g.registry.textures[i]? = some r) =>
    Resource.backing_backAll dev s 0 hr
  have hbuffer := fun (r : Resource .buffer) (hr : g.registry.buffers[i]? = some r) =>
    Resource.backing_backAll dev s₁ 0 hr
  rw [ht, Nat.zero_add] at htexture
  rw [Nat.zero_add] at hbuffer
  cases e with
  | some e =>
    rw [creations_of_refused he.symm, Registry.back, ht]
    cases k with
    | texture => exact htexture r hr
    | buffer => exact ⟨r, hr, rfl, by rw [madeFor_zip_missing (by decide), Option.or_none]⟩
  | none =>
    rw [creations_of_accepted he.symm, ← hs, Registry.back, ht, madeFor_append]
    cases k with
    | texture =>
      obtain ⟨r', hr', hid, hb⟩ := htexture r hr
      refine ⟨r', hr', hid, hb.trans ?_⟩
      rw [madeFor_zip_missing (k := .buffer) (by decide), Option.or_none]
    | buffer =>
      obtain ⟨r', hr', hid, hb⟩ := hbuffer r hr
      refine ⟨r', hr', hid, hb.trans ?_⟩
      rw [madeFor_zip_missing (k := .texture) (by decide), Option.none_or]

theorem extends_back (g : Graph) (dev : Device σ) (s : σ) :
    g.registry.Extends (madeFor (g.creations dev s)) (g.registry.back dev s).1 := by
  refine ⟨fun key r hr => g.backing_back dev s key.kind key.index hr, fun key r' hr' hnone => ?_⟩
  -- backing makes no new records
  have hmap := Registry.map_back (k := key.kind) (q := Resource.identity) (fun _ _ _ _ => rfl) dev s g.registry
  obtain ⟨r, hr, -⟩ := Registry.getElem?_of_map hmap.symm key.index hr'
  rw [Registry.record?] at hnone
  rw [hnone] at hr
  cases hr

/-- **A compile gives the resources that need an object what it creates for them,** and leaves every other object alone,
whether it succeeds or not. -/
theorem extends_compile (hc : g.compile dev s = .ok (g', answer, s')) :
    g.registry.Extends (madeFor (g.creations dev s)) g'.registry := by
  have hback := g.extends_back dev s
  cases answer with
  | error e =>
    rw [compile_error_inv hc]
    exact hback
  | ok stats =>
    obtain ⟨registry, plan, hb, hp, rfl⟩ := compile_inv hc
    obtain ⟨needed, after, raw, merged, final, removed, dropped, -, hs, -, -, rfl⟩ := compilePasses_eq_ok_iff.1 hp
    rw [hb] at hback
    exact hback.keeps (Registry.keeps_of_map fun k => map_planned (fun _ _ _ => rfl) hs)

theorem keeps_invalidate (g : Graph) : g.registry.Keeps g.invalidate.registry := by
  have hrewind : g.registry.Keeps g.registry.rewind := g.registry.keeps_mapRecords _ fun _ _ _ => rfl
  unfold invalidate
  split
  · exact hrewind
  · exact Registry.keeps_of_map fun _ => rfl

/-- declaring something leaves every object alone -/
theorem keeps_declare (g : Graph) (d : Declaration) : g.registry.Keeps (g.declare d).registry := by
  cases d with
  | create k d => exact g.keeps_invalidate.keeps (Registry.keeps_create _ d)
  | importNative k native d s => exact g.keeps_invalidate.keeps (Registry.keeps_importNative _ native d s)
  | exportState h s =>
    rw [declare, exportState]
    split
    · rename_i registry he
      exact (Registry.keeps_export he).keeps (keeps_invalidate { g with registry })
    · exact Registry.keeps_of_map fun _ => rfl
  | addPass name kind setup callback => exact g.keeps_invalidate.keeps (Registry.keeps_setup _ kind setup)

/-! ## Once -/

/-- the create calls made for the resources of a graph so far -/
structure AllocatedOnce (g : Graph) (calls : List (Key × CreateCall)) : Prop where
  /-- each is for a resource of the graph's own, not an imported one, with its name and what it looks like -/
  own : ∀ c ∈ calls, ∃ r, g.registry.record? c.1 = some r ∧ r.imported = false ∧
    c.2.request = ⟨c.1.kind, r.descriptor⟩ ∧ c.2.name = r.name
  /-- once a call for a resource is accepted, there is no other call for it -/
  once : calls.Pairwise fun c d => c.2.error? = none → c.1 ≠ d.1
  /-- the object of a resource is the one its accepted call was answered with -/
  given : ∀ key r, g.registry.record? key = some r → r.imported = false → r.backing = madeFor calls key

variable {calls more : List (Key × CreateCall)}

theorem madeFor_of_accepted {c : Key × CreateCall} (hc : c ∈ calls) (ha : c.2.error? = none) :
    madeFor calls c.1 ≠ none := by
  intro hnone
  have hc := List.findSome?_eq_none_iff.1 hnone c hc
  rw [if_pos rfl] at hc
  cases he : c.2.answer with
  | ok a =>
    rw [he] at hc
    cases hc
  | error e =>
    rw [CreateCall.error?, he] at ha
    cases ha

/-- what is asked for next is for resources of the graph's own without an object -/
theorem AllocatedOnce.extend (h : g.AllocatedOnce calls) (hext : g.registry.Extends (madeFor more) g'.registry)
    (heach : ∀ c ∈ more, ∃ r, g.registry.record? c.1 = some r ∧ r.imported = false ∧ r.backing = none ∧
      c.2.request = ⟨c.1.kind, r.descriptor⟩ ∧ c.2.name = r.name)
    (hdistinct : more.Pairwise fun c d => c.1 ≠ d.1) : g'.AllocatedOnce (calls ++ more) := by
  have hown : ∀ c ∈ calls ++ more, ∃ r, g.registry.record? c.1 = some r ∧ r.imported = false ∧
      c.2.request = ⟨c.1.kind, r.descriptor⟩ ∧ c.2.name = r.name := by
    intro c hc
    rcases List.mem_append.1 hc with hc | hc
    · exact h.own c hc
    · obtain ⟨r, hr, himported, -, hrest⟩ := heach c hc
      exact ⟨r, hr, himported, hrest⟩
  refine ⟨fun c hc => ?_, ?_, fun key r' hr' himported => ?_⟩
  · obtain ⟨r, hr, himported, hrequest, hname⟩ := hown c hc
    obtain ⟨r', hr', hid, -⟩ := hext.kept c.1 r hr
    obtain ⟨hn, hd, hi⟩ := Resource.identity_eq_iff.1 hid
    exact ⟨r', hr', hi.trans himported, by rw [hrequest, hd], hname.trans hn.symm⟩
  · have hmore : more.Pairwise fun c d => c.2.error? = none → c.1 ≠ d.1 :=
      hdistinct.imp fun {c d} (hne : c.1 ≠ d.1) (_ : c.2.error? = none) => hne
    refine List.pairwise_append.2 ⟨h.once, hmore, fun c hc d hd ha e => ?_⟩
    obtain ⟨r, hr, himported, hbacking, -⟩ := heach d hd
    rw [h.given d.1 r hr himported, ← e] at hbacking
    exact madeFor_of_accepted hc ha hbacking
  · rw [madeFor_append]
    cases hr : g.registry.record? key with
    | none =>
      -- a new resource, which no call was for
      have hnocall : ∀ c ∈ calls ++ more, c.1 ≠ key := by
        intro c hc e
        subst e
        obtain ⟨r, hrecord, -⟩ := hown c hc
        rw [hr] at hrecord
        cases hrecord
      rw [← madeFor_append, madeFor_eq_none hnocall]
      exact hext.new key r' hr' hr himported
    | some r =>
      obtain ⟨q, hq, hid, hb⟩ := hext.kept key r hr
      rw [hr'] at hq
      cases hq
      have himported' : r.imported = false := (Resource.identity_eq_iff.1 hid).2.2.symm.trans himported
      rw [hb, h.given key r hr himported']

/-- **No resource is allocated twice,** however declarations and compiles on failing devices follow one another. -/
theorem Runs.allocatedOnce {settings : Settings} {ds : List Declaration} (h : (new settings).Runs ds calls g) :
    g.AllocatedOnce calls := by
  induction h with
  | start =>
    refine ⟨fun c hc => (List.not_mem_nil hc).elim, List.Pairwise.nil, fun key r hr => ?_⟩
    obtain ⟨kind, index⟩ := key
    cases kind <;> cases hr
  | @declare ds calls g d _ ih =>
    have hnone : ∀ c ∈ ([] : List (Key × CreateCall)), ∃ r, g.registry.record? c.1 = some r ∧ r.imported = false ∧
        r.backing = none ∧ c.2.request = ⟨c.1.kind, r.descriptor⟩ ∧ c.2.name = r.name :=
      fun c hc => (List.not_mem_nil hc).elim
    exact List.append_nil calls ▸ ih.extend (g.keeps_declare d) hnone List.Pairwise.nil
  | @compile ds calls g g' σ dev s s' answer _ hc ih =>
    have hasks := g.asksInOrder dev s
    refine ih.extend (extends_compile hc) hasks.each ((List.pairwise_map.1 hasks.ordered).imp fun {c d} hbefore e => ?_)
    rw [e] at hbefore
    exact hbefore.irrefl
  | afterRun _ ih => exact ⟨ih.own, ih.once, ih.given⟩

/-- **A resource keeps its object.** -/
theorem Runs.backing_kept {ds : List Declaration} (h : g.Runs ds calls g') {key : Key} {r : Resource key.kind}
    {a : Allocation} (hr : g.registry.record? key = some r) (ha : r.backing = some a) :
    ∃ r', g'.registry.record? key = some r' ∧ r'.identity = r.identity ∧ r'.backing = some a := by
  induction h with
  | start => exact ⟨r, hr, rfl, ha⟩
  | @declare ds calls g' d _ ih =>
    obtain ⟨q, hq, hid, hb⟩ := ih
    obtain ⟨r', hr', hid', hb'⟩ := (g'.keeps_declare d).kept key q hq
    exact ⟨r', hr', hid'.trans hid, by rw [hb', hb]; rfl⟩
  | compile _ hc ih =>
    obtain ⟨q, hq, hid, hb⟩ := ih
    obtain ⟨r', hr', hid', hb'⟩ := (extends_compile hc).kept key q hq
    exact ⟨r', hr', hid'.trans hid, by rw [hb', hb]; rfl⟩
  | afterRun _ ih => exact ih

end Graph

end FrameGraph
