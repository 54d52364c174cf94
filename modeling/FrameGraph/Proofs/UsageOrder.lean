/-
The order of usages of different resources does not matter.

Passes are reordered (`Pass.Reordered`) when the usages of each resource are the same ones, in the same order. Whatever
compiling reads of a pass is either a set of its usages, or the list of its usages of one resource; only the order in
which barriers of different resources are made is left to differ. Merging sorts them, stably, and the sort key begins
with the resource, so nothing of that order is left.

- `neededPasses_reordered`, `advance_reordered`: the passes that are kept, and the states each leaves, are the same.
- `SameOnEach`: the barriers of each resource are the same ones, in the same order. `mergeBarriers_congr`: such lists
  are merged to the same list.
- `compilePasses_reordered`: so the plans are the same, or planning both faults alike.
- `compile_reordered`: compiling reordered graphs on identical devices gives the same answer and the same plan.
-/
import FrameGraph.Proofs.MergingGroups
import FrameGraph.Proofs.Redundancy

namespace FrameGraph

open ResourceKind

variable {k : ResourceKind} {σ : Type}

/-! ## Results that are alike -/

/-- the faults are the same, except that it may be another state a pass is told it cannot request -/
def Fault.SameKind (e e' : Fault) : Prop :=
  e' = e ∨ ∃ pass kind state state', e = .stateNotAllowed pass kind state ∧ e' = .stateNotAllowed pass kind state'

/-- both computations fault alike, or both have results that are related -/
inductive Corresponds {α β : Type} (R : α → β → Prop) : Except Fault α → Except Fault β → Prop
  | error {e e' : Fault} : e.SameKind e' → Corresponds R (.error e) (.error e')
  | ok {a : α} {b : β} : R a b → Corresponds R (.ok a) (.ok b)

section Corresponds

variable {α β γ δ : Type} {R : α → β → Prop} {S : γ → δ → Prop} {x : Except Fault α} {y : Except Fault β}

theorem Corresponds.bind {f : α → Except Fault γ} {f' : β → Except Fault δ} (h : Corresponds R x y)
    (hf : ∀ a b, R a b → Corresponds S (f a) (f' b)) : Corresponds S (x >>= f) (y >>= f') := by
  cases h with
  | error he => exact .error he
  | ok hab => exact hf _ _ hab

theorem Corresponds.map {f : α → γ} {f' : β → δ} (h : Corresponds R x y) (hf : ∀ a b, R a b → S (f a) (f' b)) :
    Corresponds S (x.map f) (y.map f') := by
  cases h with
  | error he => exact .error he
  | ok hab => exact .ok (hf _ _ hab)

theorem Corresponds.of_ok {a : α} (h : Corresponds R (.ok a) y) : ∃ b, y = .ok b ∧ R a b := by
  cases h with
  | ok hab => exact ⟨_, rfl, hab⟩

theorem Corresponds.refl (x : Except Fault α) : Corresponds Eq x x := by
  cases x with
  | error e => exact .error (.inl rfl)
  | ok a => exact .ok rfl

end Corresponds

/-! ## Reordered passes -/

/-- passes of the same name and kind, whose usages of each resource are the same ones, in the same order -/
structure Pass.Reordered (p q : Pass) : Prop where
  name : q.name = p.name
  kind : q.kind = p.kind
  usages : ∀ key, (q.usages.filter fun u => u.key = key) = p.usages.filter fun u => u.key = key

/-- the usages of one resource, of all the usages of a pass -/
theorem Pass.usesOf_eq (p : Pass) (k : ResourceKind) (i : Nat) :
    p.usesOf k i = Usage.ofKind k (p.usages.filter fun u => u.key = ⟨k, i⟩) := by
  rw [usesOf, Usage.ofKind, Usage.ofKind, List.filter_filterMap, List.filterMap_filter]
  refine List.filterMap_congr fun u _ => ?_
  obtain ⟨kind, use⟩ := u
  cases k <;> cases kind <;> simp [Usage.as?, Usage.key, Option.filter]

namespace Pass.Reordered

variable {p q : Pass} {g : Registry}

theorem symm (h : p.Reordered q) : q.Reordered p :=
  ⟨h.name.symm, h.kind.symm, fun key => (h.usages key).symm⟩

theorem mem_usages (h : p.Reordered q) {u : Usage} : u ∈ q.usages ↔ u ∈ p.usages := by
  have hmem : ∀ r : Pass, u ∈ r.usages ↔ u ∈ r.usages.filter fun v => v.key = u.key := fun r => by
    rw [List.mem_filter, decide_eq_true_eq, and_iff_left rfl]
  rw [hmem q, hmem p, h.usages]

theorem usesOf (h : p.Reordered q) (k : ResourceKind) (i : Nat) : q.usesOf k i = p.usesOf k i := by
  rw [Pass.usesOf_eq, Pass.usesOf_eq, h.usages]

theorem mem_touched (h : p.Reordered q) {n : Nat} : n ∈ q.touched k ↔ n ∈ p.touched k := by
  rw [Pass.mem_touched, Pass.mem_touched, h.usesOf]

theorem mem_writeKeys (h : p.Reordered q) {key : Key} : key ∈ q.writeKeys ↔ key ∈ p.writeKeys := by
  simp only [Pass.mem_writeKeys, h.mem_usages]

/-- **Each leaves the same states.** -/
theorem advance (h : p.Reordered q) (g : Registry) : q.advance g = p.advance g := by
  simp only [Pass.advance, h.usesOf]

theorem illegal_iff (h : p.Reordered q) : q.illegal? = none ↔ p.illegal? = none := by
  rw [Pass.illegal?_eq_none, Pass.illegal?_eq_none, h.kind]
  simp only [h.mem_usages]

/-- two usages of different resources may be declared the other way round -/
theorem swap (p : Pass) (before : List Usage) {after : List Usage} {u v : Usage}
    (hp : p.usages = before ++ u :: v :: after) (h : u.key ≠ v.key) :
    p.Reordered { p with usages := before ++ v :: u :: after } := by
  refine ⟨rfl, rfl, fun key => ?_⟩
  rw [hp, List.filter_append, List.filter_append]
  by_cases hu : u.key = key
  · have hv : v.key ≠ key := fun hv => h (hu.trans hv.symm)
    simp [hu, hv]
  · simp [List.filter_cons, hu]

end Pass.Reordered

/-! ## Sets of usages -/

section Sets

variable {passes passes' : List Pass}

/-- what reordered passes have in common they have in common one by one -/
theorem map_eq_of_reordered {β : Type} {f : Pass → β} (h : List.Forall₂ Pass.Reordered passes passes')
    (hf : ∀ p q, p.Reordered q → f q = f p) : passes'.map f = passes.map f := by
  induction h with
  | nil => rfl
  | cons hpq _ ih => rw [List.map_cons, List.map_cons, hf _ _ hpq, ih]

theorem getElem?_of_reordered (h : List.Forall₂ Pass.Reordered passes passes') {i : Nat} {p : Pass}
    (hp : passes[i]? = some p) : ∃ q, passes'[i]? = some q ∧ p.Reordered q := by
  induction h generalizing i with
  | nil => cases hp
  | cons hpq _ ih =>
    cases i with
    | zero =>
      cases hp
      exact ⟨_, rfl, hpq⟩
    | succ i => exact ih hp

theorem writersOf_reordered (h : List.Forall₂ Pass.Reordered passes passes') (key : Key) :
    writersOf (passes'.map Pass.withSets) key = writersOf (passes.map Pass.withSets) key := by
  have hwrites : ∀ ps : List Pass, writersOf (ps.map Pass.withSets) key =
      ((ps.map fun p => p.writeKeys.contains key).zipIdx.filter fun x => x.1).map Prod.snd := by
    intro ps
    simp only [writersOf, List.zipIdx_map, List.filter_map, List.map_map]
    rfl
  rw [hwrites, hwrites, map_eq_of_reordered h fun p q hpq => ?_]
  rw [Bool.eq_iff_iff, List.contains_iff_mem, List.contains_iff_mem, hpq.mem_writeKeys]

theorem needed_of_reordered {visible : Key → Bool} (h : List.Forall₂ Pass.Reordered passes passes') {i : Nat}
    (hi : Needed visible passes i) : Needed visible passes' i := by
  induction hi with
  | visible hp hu hw hv =>
    obtain ⟨q, hq, hpq⟩ := getElem?_of_reordered h hp
    exact .visible hq (hpq.mem_usages.2 hu) hw hv
  | feeds hp hu hw hp' hv hr hkey _ ih =>
    obtain ⟨q, hq, hpq⟩ := getElem?_of_reordered h hp
    obtain ⟨q', hq', hpq'⟩ := getElem?_of_reordered h hp'
    exact .feeds hq (hpq.mem_usages.2 hu) hw hq' (hpq'.mem_usages.2 hv) hr hkey ih

theorem forall₂_symm (h : List.Forall₂ Pass.Reordered passes passes') : List.Forall₂ Pass.Reordered passes' passes :=
  (h.imp fun _ _ hpq => hpq.symm).flip

/-- **The same passes are needed.** -/
theorem neededPasses_reordered (h : List.Forall₂ Pass.Reordered passes passes') (g : Registry) :
    neededPasses g (passes'.map Pass.withSets) = neededPasses g (passes.map Pass.withSets) := by
  have hmem : ∀ i, i ∈ neededPasses g (passes'.map Pass.withSets) ↔ i ∈ neededPasses g (passes.map Pass.withSets) := by
    intro i
    rw [mem_neededPasses, mem_neededPasses]
    exact ⟨needed_of_reordered (forall₂_symm h), needed_of_reordered h⟩
  have hasc : ∀ ps : List Pass, (neededPasses g ps).Pairwise (· < ·) := fun ps => List.pairwise_lt_range.filter _
  have hnodup : ∀ ps : List Pass, (neededPasses g ps).Nodup := fun ps => (hasc ps).imp Nat.ne_of_lt
  refine List.Perm.eq_of_pairwise (fun i j _ _ hij hji => absurd hij (Nat.lt_asymm hji)) (hasc _) (hasc _) ?_
  exact (List.perm_ext_iff_of_nodup (hnodup _) (hnodup _)).2 hmem

end Sets

/-! ## Barriers of each resource -/

/-- the barriers of each resource are the same ones, in the same order -/
def SameOnEach (bs cs : List (Barrier k)) : Prop :=
  ∀ n, (cs.filter fun b => b.resource = n) = bs.filter fun b => b.resource = n

namespace SameOnEach

variable {bs cs : List (Barrier k)}

/-- a sort key begins with the resource -/
theorem filter_sortKey (h : SameOnEach bs cs) (key : List Nat) :
    (bs.filter fun b => b.sortKey = key) = cs.filter fun b => b.sortKey = key := by
  have hfilter : ∀ ds : List (Barrier k), (ds.filter fun b => b.sortKey = key) =
      (ds.filter fun b => b.resource = key.headD 0).filter fun b => b.sortKey = key := by
    intro ds
    rw [List.filter_filter]
    refine List.filter_congr fun b _ => ?_
    by_cases hb : b.sortKey = key
    · have hhead : b.resource = key.headD 0 := hb ▸ rfl
      simp [hb, hhead]
    · simp [hb]
  rw [hfilter bs, hfilter cs, h]

theorem perm (h : SameOnEach bs cs) : cs.Perm bs := by
  classical
  refine List.perm_iff_count.2 fun b => ?_
  have hcount : ∀ ds : List (Barrier k), ds.count b = (ds.filter fun c => c.resource = b.resource).count b := fun ds =>
    (List.count_filter (by simp)).symm
  rw [hcount cs, hcount bs, h]

end SameOnEach

/-- **Merging does not depend on the order of barriers of different resources.** -/
theorem mergeBarriers_congr {bs cs : List (Barrier k)} (h : SameOnEach bs cs) (bounds : Nat → Except Fault k.Bounds) :
    mergeBarriers bounds cs = mergeBarriers bounds bs := by
  rw [mergeBarriers, mergeBarriers, barrierGroups, barrierGroups, sortOn_congr h.filter_sortKey]

/-- batches of the same passes, with the same barriers of each resource, in the same order -/
def Batches.SameOnEach : Batches → Batches → Prop :=
  List.Forall₂ fun x y => y.1 = x.1 ∧ ∀ k, FrameGraph.SameOnEach (x.2.get k) (y.2.get k)

/-- barriers resource by resource, each resource once -/
theorem filter_flatMap_resource {ns : List Nat} (hn : ns.Nodup) {f : Nat → List (Barrier k)}
    (hf : ∀ n, ∀ b ∈ f n, b.resource = n) (m : Nat) :
    ((ns.flatMap f).filter fun b => b.resource = m) = if m ∈ ns then f m else [] := by
  induction ns with
  | nil => rfl
  | cons n ns ih =>
    obtain ⟨hnotin, hn⟩ := List.nodup_cons.1 hn
    rw [List.flatMap_cons, List.filter_append, ih hn]
    by_cases hm : n = m
    · subst hm
      rw [if_neg hnotin, if_pos List.mem_cons_self, List.append_nil]
      exact List.filter_eq_self.2 fun b hb => decide_eq_true (hf n b hb)
    · have hnone : ((f n).filter fun b => b.resource = m) = [] :=
        List.filter_eq_nil_iff.2 fun b hb => by simpa [hf n b hb] using hm
      rw [hnone, List.nil_append]
      exact if_congr (by simp [Ne.symm hm]) rfl rfl

/-- **Reordered passes make the same barriers of each resource.** -/
theorem Pass.Reordered.barriersFrom {p q : Pass} (h : p.Reordered q) {g : Registry} (hg : g.Ready) (k : ResourceKind) :
    SameOnEach ((p.barriersFrom g).get k) ((q.barriersFrom g).get k) := by
  intro n
  rw [Pass.get_barriersFrom, Pass.get_barriersFrom]
  simp only [h.usesOf]
  rw [filter_flatMap_resource Pass.nodup_touched ?_, filter_flatMap_resource Pass.nodup_touched ?_]
  · exact if_congr h.mem_touched rfl rfl
  all_goals
    intro m b hb
    cases hr : (g.get k)[m]? with
    | none =>
      rw [hr] at hb
      cases hb
    | some r =>
      simp only [hr] at hb
      exact (Resource.of_mem_meet (hg k r (List.mem_of_getElem? hr)) hb).1

theorem mergeBatch_congr {x y : Batch} (h : ∀ k, SameOnEach (x.get k) (y.get k)) (g : Registry) :
    mergeBatch g y = mergeBatch g x := by
  have htextures : SameOnEach x.textures y.textures := h .texture
  have hbuffers : SameOnEach x.buffers y.buffers := h .buffer
  simp only [mergeBatch, mergeBarriers_congr htextures, mergeBarriers_congr hbuffers, htextures.perm.length_eq,
    hbuffers.perm.length_eq]

namespace Batches.SameOnEach

variable {raw raw' : Batches}

theorem mergeAll (h : raw.SameOnEach raw') (g : Registry) : mergeAll g raw' = FrameGraph.mergeAll g raw := by
  induction h with
  | nil => rfl
  | @cons x y rest rest' hxy _ ih =>
    obtain ⟨i, batch⟩ := x
    obtain ⟨j, batch'⟩ := y
    obtain ⟨rfl, hbatch⟩ := hxy
    rw [FrameGraph.mergeAll, FrameGraph.mergeAll, mergeBatch_congr hbatch, ih]

theorem counts (h : raw.SameOnEach raw') :
    raw'.textureCount = raw.textureCount ∧ raw'.bufferCount = raw.bufferCount := by
  induction h with
  | nil => exact ⟨rfl, rfl⟩
  | cons hxy _ ih =>
    obtain ⟨-, hbatch⟩ := hxy
    have htextures := (hbatch .texture).perm.length_eq
    have hbuffers := (hbatch .buffer).perm.length_eq
    simp only [textureCount, bufferCount, List.flatMap_cons, List.length_append] at ih ⊢
    exact ⟨congrArg₂ (· + ·) htextures ih.1, congrArg₂ (· + ·) hbuffers ih.2⟩

end Batches.SameOnEach

/-! ## The stages -/

section Stages

variable {passes passes' : List Pass} {g : Registry}

theorem Pass.Reordered.withSets {p q : Pass} (h : p.Reordered q) : p.withSets.Reordered q.withSets :=
  ⟨h.name, h.kind, h.usages⟩

theorem reordered_withSets (h : List.Forall₂ Pass.Reordered passes passes') :
    List.Forall₂ Pass.Reordered (passes.map Pass.withSets) (passes'.map Pass.withSets) :=
  List.forall₂_map_left_iff.2 (List.forall₂_map_right_iff.2 (h.imp fun _ _ hpq => hpq.withSets))

theorem noteWriters_reordered (h : List.Forall₂ Pass.Reordered passes passes') (g : Registry) :
    g.noteWriters (passes'.map Pass.withSets) = g.noteWriters (passes.map Pass.withSets) := by
  simp only [Registry.noteWriters, writersOf_reordered h]

/-- the same passes are kept, where every usage is registered -/
theorem keptPasses_reordered (h : List.Forall₂ Pass.Reordered passes passes') (cull : Bool)
    (hr : ∀ p ∈ passes, ∀ u ∈ p.usages, g.contains u.key = true) :
    ∃ needed, keptPasses cull g (passes.map Pass.withSets) = .ok needed ∧
      keptPasses cull g (passes'.map Pass.withSets) = .ok needed := by
  have hr' : ∀ q ∈ passes', ∀ u ∈ q.usages, g.contains u.key = true := by
    intro q hq u hu
    obtain ⟨i, hi⟩ := List.mem_iff_getElem?.1 hq
    obtain ⟨p, hp, hqp⟩ := getElem?_of_reordered (forall₂_symm h) hi
    exact hr p (List.mem_of_getElem? hp) u (hqp.mem_usages.2 hu)
  obtain ⟨needed, hk⟩ := exists_keptPasses cull hr
  obtain ⟨needed', hk'⟩ := exists_keptPasses cull hr'
  refine ⟨needed, hk, ?_⟩
  rw [hk']
  unfold keptPasses at hk hk'
  cases cull with
  | false =>
    cases hk
    cases hk'
    simp only [List.length_map, h.length_eq]
  | true =>
    rw [if_pos rfl] at hk hk'
    split at hk
    · split at hk'
      · cases hk
        cases hk'
        rw [neededPasses_reordered h]
      · cases hk'
    · cases hk

/-- **Reordered passes make the same barriers of each resource and lead to the same states,** or fault alike. -/
theorem synthesize_reordered (h : List.Forall₂ Pass.Reordered passes passes') (hg : g.Ready) (indices : List Nat) :
    Corresponds (fun x y => y.1 = x.1 ∧ x.2.SameOnEach y.2) (synthesize passes g indices)
      (synthesize passes' g indices) := by
  induction indices generalizing g with
  | nil => exact .ok ⟨rfl, List.Forall₂.nil⟩
  | cons i rest ih =>
    cases hp : passes[i]? with
    | none =>
      have hq : passes'[i]? = none := by
        rw [List.getElem?_eq_none_iff] at hp ⊢
        rwa [← h.length_eq]
      simp only [synthesize, hp, hq]
      exact .error (.inl rfl)
    | some p =>
      obtain ⟨q, hq, hpq⟩ := getElem?_of_reordered h hp
      cases hl : p.illegal? with
      | some u =>
        have hne : q.illegal? ≠ none := fun hnone => Option.some_ne_none u (hl.symm.trans (hpq.illegal_iff.1 hnone))
        obtain ⟨v, hv⟩ := Option.ne_none_iff_exists'.1 hne
        simp only [synthesize, hp, hq, hl, hv]
        exact .error (.inr ⟨p.name, p.kind, u.state, v.state, rfl, by rw [hpq.name, hpq.kind]⟩)
      | none =>
        simp only [synthesize, hp, hq, hl, hpq.illegal_iff.2 hl, Pass.check_ok hg, hpq.advance]
        refine (ih (Pass.ready_advance hg)).bind fun x y hxy => .ok ⟨hxy.1, List.Forall₂.cons ⟨rfl, fun k => ?_⟩ hxy.2⟩
        exact hpq.barriersFrom hg k

theorem afterElimination_reordered (h : List.Forall₂ Pass.Reordered passes passes') (settings : Settings)
    (order : List Nat) (merged : Batches) :
    afterElimination settings (passes'.map Pass.withSets) g order merged =
      afterElimination settings (passes.map Pass.withSets) g order merged := by
  have hnames := map_eq_of_reordered (f := Pass.name) (reordered_withSets h) fun _ _ hpq => hpq.name
  have hname : ∀ i : Nat,
      (passes'.map Pass.withSets)[i]?.map Pass.name = (passes.map Pass.withSets)[i]?.map Pass.name := by
    intro i
    rw [← List.getElem?_map, hnames, List.getElem?_map]
  simp only [afterElimination, hname]

end Stages

/-- what compiling has decided for a pass: whether it is culled, and its barriers -/
def Pass.decided (p : Pass) : Bool × Batch := (p.plan.culled, p.plan.barriers)

/-- the plans lead to the same states and writers, keep the same passes in the same order, have the same barriers in the
same order, and count the same -/
structure Compiled.SamePlan (c c' : Compiled) : Prop where
  registry : c'.registry = c.registry
  order : c'.order = c.order
  decided : c'.passes.map Pass.decided = c.passes.map Pass.decided
  stats : c'.stats = c.stats

theorem Compiled.assemble_reordered {passes passes' : List Pass} (h : List.Forall₂ Pass.Reordered passes passes')
    {raw raw' : Batches} (hraw : raw.SameOnEach raw') (needed : List Nat) (g : Registry) (final : Batches)
    (removed dropped : Nat) :
    (assemble passes needed g raw final removed dropped).SamePlan
      (assemble passes' needed g raw' final removed dropped) := by
  obtain ⟨htextures, hbuffers⟩ := hraw.counts
  refine ⟨rfl, rfl, ?_, ?_⟩
  · refine List.ext_getElem? fun i => ?_
    simp only [assemble, List.getElem?_map, List.getElem?_mapIdx, Option.map_map]
    have hi := congrArg (·[i]?) (map_eq_of_reordered (f := fun _ => ()) h fun _ _ _ => rfl)
    simp only [List.getElem?_map] at hi
    cases hp : passes[i]? <;> cases hq : passes'[i]? <;> simp_all [Pass.decided]
  · simp only [assemble, htextures, hbuffers, h.length_eq]

/-- **Reordered passes have the same plan if barriers are merged,** or planning them faults alike. -/
theorem compilePasses_reordered {passes passes' : List Pass} {settings : Settings} {g : Registry}
    (h : List.Forall₂ Pass.Reordered passes passes') (hmerge : settings.merge = true) (hg : g.Opened)
    (hr : ∀ p ∈ passes, ∀ u ∈ p.usages, g.contains u.key = true) :
    Corresponds Compiled.SamePlan (compilePasses settings g passes) (compilePasses settings g passes') := by
  have hnote := noteWriters_reordered h g
  obtain ⟨needed, hk, hk'⟩ := keptPasses_reordered (g := g.noteWriters (passes.map Pass.withSets)) h settings.cull
    fun p hp u hu => (g.grows_mapRecords _).contains (hr p hp u hu)
  rw [compilePasses_of_kept hk, compilePasses_of_kept (hnote.symm ▸ hk'), hnote]
  refine (synthesize_reordered (reordered_withSets h) (hg.noteWriters _).ready needed).bind ?_
  rintro ⟨after, raw⟩ ⟨after', raw'⟩ ⟨hafter, hraw⟩
  dsimp only at hafter hraw ⊢
  subst hafter
  have hmerged : afterMerging settings after' raw' = afterMerging settings after' raw := by
    simp only [afterMerging, hmerge, if_true, hraw.mergeAll]
  rw [hmerged]
  refine (Corresponds.refl _).bind ?_
  rintro m _ rfl
  rw [afterElimination_reordered h]
  refine (Corresponds.refl _).bind ?_
  rintro e _ rfl
  exact .ok (Compiled.assemble_reordered (reordered_withSets h) hraw needed after' e.1 m.2 e.2)

/-! ## Compiling reordered graphs -/

namespace Graph

/-- graphs with the same settings and resources, and reordered passes -/
structure Reordered (g g' : Graph) : Prop where
  settings : g'.settings = g.settings
  registry : g'.registry = g.registry
  passes : List.Forall₂ Pass.Reordered g.passes g'.passes

/-- compiling has answered the same and left the same device: the same error and the same resources, or the same plan -/
inductive SameAnswer : Graph × Except AllocationError Stats × σ → Graph × Except AllocationError Stats × σ → Prop
  | refused {g g' : Graph} {e : AllocationError} {s : σ} :
    g'.registry = g.registry → SameAnswer (g, .error e, s) (g', .error e, s)
  | planned {g g' : Graph} {stats : Stats} {s : σ} :
    g'.registry = g.registry → g'.order = g.order → g'.passes.map Pass.decided = g.passes.map Pass.decided →
      g.stats = stats → g'.stats = stats → SameAnswer (g, .ok stats, s) (g', .ok stats, s)

/-- **The order of usages of different resources does not matter if barriers are merged.** On identical devices,
compiling answers the same: the same refusal, faults of one kind, or the same order, culled passes, barriers in the same
order, tracked states, writers and statistics. This holds for records of one native object, too. -/
theorem compile_reordered {g g' : Graph} (h : g.Built) (hmerge : g.settings.merge = true) (hr : g.Reordered g')
    (dev : Device σ) (s : σ) : Corresponds SameAnswer (g.compile dev s) (g'.compile dev s) := by
  obtain ⟨hsettings, hregistry, hpasses⟩ := hr
  cases hb : g.registry.back dev s with
  | mk registry rest =>
    obtain ⟨refusal, s'⟩ := rest
    have hb' : g'.registry.back dev s = (registry, refusal, s') := hregistry ▸ hb
    cases refusal with
    | some e =>
      simp only [compile, hb, hb']
      exact .ok (.refused rfl)
    | none =>
      have hgrows := Registry.grows_back dev s g.registry
      rw [hb] at hgrows
      have hplan := compilePasses_reordered hpasses hmerge (Registry.opened_of_back h.coherent hb) fun p hp u hu =>
        hgrows.contains (h.registered p hp u hu)
      rw [compile_of_back hb, compile_of_back hb', hsettings]
      refine hplan.map fun c c' hc => ?_
      rw [hc.stats]
      exact .planned hc.registry hc.order hc.decided rfl rfl

/-- a pass uses both records of a texture, and another texture before or after the first of them -/
def interleaved (last : Bool) : Graph :=
  let first := (0, ResourceState.renderTarget, Access.write)
  let other := (2, ResourceState.copyDest, Access.write)
  let second := (1, ResourceState.copySource, Access.read)
  shared { onStale := .drop } [if last then [first, other, second] else [other, first, second]]

theorem built_interleaved (last : Bool) : (interleaved last).Built := built_shared _ _

theorem interleaved_reordered : (interleaved true).Reordered (interleaved false) :=
  ⟨rfl, rfl, .cons (Pass.Reordered.swap _ [] rfl (by decide)) .nil⟩

/-- both compile, and one stale barrier is dropped from each -/
theorem compile_reordered_interleaved : ∃ g₁ g₂ stats s',
    (interleaved true).compile CountingDevice.device {} = .ok (g₁, .ok stats, s') ∧
    (interleaved false).compile CountingDevice.device {} = .ok (g₂, .ok stats, s') ∧ stats.redundantDropped = 1 ∧
    g₂.passes.map Pass.decided = g₁.passes.map Pass.decided := by
  have h : (match (interleaved true).compile CountingDevice.device {} with
      | .ok (_, .ok stats, _) => decide (stats.redundantDropped = 1)
      | _ => false) = true := by decide +kernel
  have hcorresponds := compile_reordered (built_interleaved true) rfl interleaved_reordered CountingDevice.device {}
  split at h
  · rename_i g₁ stats s₁ h₁
    rw [h₁] at hcorresponds
    obtain ⟨answer, h₂, hsame⟩ := hcorresponds.of_ok
    cases hsame with
    | planned _ _ hdecided _ _ => exact ⟨g₁, _, stats, s₁, h₁, h₂, of_decide_eq_true h, hdecided⟩
  · cases h

end Graph

end FrameGraph
