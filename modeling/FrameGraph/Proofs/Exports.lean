/-
The export batch takes the tracked states exactly to the export states.

- `Registry.deliver`: a world with every exported resource in its export state, and the others as they were.
- `moves_exportBarriers`: the barriers to the export states are the exact difference to the tracked states.
- `exportBatch_inv`: making the batch never faults, and merged or not it is this difference.
-/
import FrameGraph.Proofs.Merging
import FrameGraph.Execution.TwoQueues

namespace FrameGraph

open ResourceKind

variable {k : ResourceKind} {g : Registry}

/-- the world once every exported resource is in its export state -/
def Registry.deliver (g : Registry) (w : World) : World := fun k n i =>
  (((g.get k)[n]?).bind fun r => r.exported.bind fun s => if i < k.size r.bounds then some s else none).or (w k n i)

/-- of the lists made from the elements of a list, only the one an element can satisfy `q` in counts -/
theorem countP_flatten_mapIdx_of_unique {α β : Type} {l : List α} {f : Nat → α → List β} {q : β → Bool} {n : Nat}
    (h : ∀ m a, ∀ b ∈ f m a, q b = true → m = n) :
    (l.mapIdx f).flatten.countP q = ((l[n]?).map fun a => (f n a).countP q).getD 0 := by
  induction l generalizing f n with
  | nil => rfl
  | cons a l ih =>
    rw [List.mapIdx_cons, List.flatten_cons, List.countP_append]
    cases n with
    | zero =>
      have hz : (l.mapIdx fun m => f (m + 1)).flatten.countP q = 0 := by
        rw [List.countP_eq_zero]
        intro b hb hq
        obtain ⟨bs, hbs, hb⟩ := List.mem_flatten.1 hb
        obtain ⟨m, hm, rfl⟩ := List.mem_mapIdx.1 hbs
        exact Nat.succ_ne_zero m (h _ _ b hb hq)
      rw [hz, Nat.add_zero]
      rfl
    | succ n =>
      have ha : (f 0 a).countP q = 0 :=
        List.countP_eq_zero.2 fun b hb hq => (Nat.succ_ne_zero n).symm (h _ _ b hb hq)
      rw [ha, Nat.zero_add, List.getElem?_cons_succ]
      exact ih fun m x b hb hq => Nat.succ.inj (h _ _ b hb hq)

namespace Resource

variable {r : Resource k} {index : Nat}

/-- only a resource with an export state has barriers to it -/
theorem of_mem_exportBarriers {b : Barrier k} (hb : b ∈ r.exportBarriers index) :
    b.resource = index ∧ r.exported.isSome = true := by
  unfold exportBarriers at hb
  split at hb
  · rename_i he _
    obtain ⟨c, -, rfl⟩ := List.mem_map.1 hb
    exact ⟨rfl, by rw [he, Option.isSome_some]⟩
  · cases hb

/-- each of them changes a state, and on a part that fits -/
theorem Ready.of_mem_exportBarriers (h : r.Ready) {b : Barrier k} (hb : b ∈ r.exportBarriers index) :
    b.before ≠ b.after ∧ ∀ p, b.part = some p → k.Inside r.bounds p := by
  unfold exportBarriers at hb
  split at hb
  · obtain ⟨c, hc, rfl⟩ := List.mem_map.1 hb
    refine ⟨Tracker.before_ne_of_mem_transition h.valid hc, fun p hp => ?_⟩
    rw [← h.bounds]
    exact Tracker.inside_of_mem_transition h.valid hc hp
  · cases hb

theorem countP_exportBarriers {L : Layout} (h : r.Ready) (hL : L k index = some r.bounds) (i : Nat)
    (s s' : ResourceState) :
    (r.exportBarriers index).countP (Barrier.takes L index i s s') =
      if r.tracker.stateAt i = some s ∧ r.exported = some s' ∧ s ≠ s' then 1 else 0 := by
  obtain ⟨native, hv⟩ := Option.isSome_iff_exists.1 h.backed
  cases he : r.exported with
  | none =>
    rw [exportBarriers, he]
    simp
  | some state =>
    rw [exportBarriers, he, hv]
    simp only [List.countP_map]
    by_cases hs : state = s'
    · subst hs
      refine Eq.trans (List.countP_congr fun c _ => ?_)
        ((@Tracker.countP_transition k r.tracker none state h.valid i s).trans (if_congr ?_ rfl rfl))
      · simp [Barrier.takes, Barrier.covers, barrier, hL, h.bounds, and_comm]
      · have hsome := Tracker.isSome_stateAt h.valid i
        rw [reaches_none]
        constructor
        · rintro ⟨-, h2, h3⟩
          exact ⟨h2, rfl, h3⟩
        · rintro ⟨h2, -, h3⟩
          rw [h2, Option.isSome_some] at hsome
          exact ⟨hsome.symm, h2, h3⟩
    · rw [if_neg fun e => hs (Option.some.inj e.2.1), List.countP_eq_zero]
      intro c _
      simp [Barrier.takes, barrier, hs]

end Resource

/-- delivering replaces each state of an exported resource -/
theorem Registry.deliver_world (h : g.Ready) {n : Nat} {r : Resource k} (hr : (g.get k)[n]? = some r) (i : Nat) :
    g.deliver g.world k n i = (r.tracker.stateAt i).map fun s => r.exported.getD s := by
  have hready := h k r (List.mem_of_getElem? hr)
  have hsome : (r.tracker.stateAt i).isSome = decide (i < k.size r.bounds) := by
    rw [Tracker.isSome_stateAt hready.valid, hready.bounds]
  rw [deliver, Registry.world, hr, Option.bind_some, Option.bind_some]
  cases r.exported with
  | none =>
    rw [Option.bind_none, Option.none_or]
    exact Option.map_id'.symm
  | some state =>
    cases hs : r.tracker.stateAt i with
    | none =>
      rw [hs, Option.isSome_none] at hsome
      rw [Option.bind_some, if_neg (of_decide_eq_false hsome.symm)]
      rfl
    | some s =>
      rw [hs, Option.isSome_some] at hsome
      rw [Option.bind_some, if_pos (of_decide_eq_true hsome.symm)]
      rfl

/-- each barrier to an export state comes from its resource -/
theorem exists_of_mem_exportBarriers {b : Barrier k}
    (hb : b ∈ ((g.get k).mapIdx fun i r => r.exportBarriers i).flatten) :
    ∃ r, (g.get k)[b.resource]? = some r ∧ b ∈ r.exportBarriers b.resource := by
  obtain ⟨bs, hbs, hb⟩ := List.mem_flatten.1 hb
  obtain ⟨n, hn, rfl⟩ := List.mem_mapIdx.1 hbs
  rw [(Resource.of_mem_exportBarriers hb).1]
  exact ⟨_, List.getElem?_eq_getElem hn, hb⟩

/-- **The barriers to the export states are the exact difference to the tracked states.** -/
theorem moves_exportBarriers (h : g.Ready) (k : ResourceKind) :
    Moves g.layout (g.world k) (g.deliver g.world k) ((g.get k).mapIdx fun i r => r.exportBarriers i).flatten where
  same := fun n i => by
    cases hr : (g.get k)[n]? with
    | none =>
      rw [Registry.deliver, hr]
      rfl
    | some r =>
      rw [Registry.deliver_world h hr, Option.isSome_map, Registry.world, hr]
      rfl
  placed := fun b hb => by
    obtain ⟨r, hr, hm⟩ := exists_of_mem_exportBarriers hb
    refine ⟨r.bounds, Registry.layout_of_getElem? hr, ?_⟩
    exact ((h k r (List.mem_of_getElem? hr)).of_mem_exportBarriers hm).2
  changing := fun b hb => by
    obtain ⟨r, hr, hm⟩ := exists_of_mem_exportBarriers hb
    exact ((h k r (List.mem_of_getElem? hr)).of_mem_exportBarriers hm).1
  count := fun n i s s' => by
    rw [countP_flatten_mapIdx_of_unique (n := n)]
    · cases hr : (g.get k)[n]? with
      | none => simp [Registry.world, hr]
      | some r =>
        have hl : g.layout k n = some r.bounds := Registry.layout_of_getElem? hr
        have hw : g.world k n i = r.tracker.stateAt i := by rw [Registry.world, hr, Option.bind_some]
        rw [Option.map_some, Option.getD_some, Resource.countP_exportBarriers (h k r (List.mem_of_getElem? hr)) hl,
          Registry.deliver_world h hr, hw]
        refine if_congr (and_congr_right fun hs => ?_) rfl rfl
        rw [hs, Option.map_some, Option.some_inj]
        cases r.exported with
        | none =>
          -- without an export state nothing is delivered
          constructor
          · rintro ⟨hno, -⟩
            cases hno
          · rintro ⟨e, hne⟩
            exact absurd e hne
        | some state => rw [Option.getD_some, Option.some_inj]
    · intro m r b hb ht
      exact (Resource.of_mem_exportBarriers hb).1.symm.trans (Moves.takes_iff.1 ht).1.1

/-- a barrier to an export state is on an exported resource -/
theorem mem_exportedKeys_of_mem {b : Barrier k} (hb : b ∈ ((g.get k).mapIdx fun i r => r.exportBarriers i).flatten) :
    ⟨k, b.resource⟩ ∈ g.exportedKeys := by
  obtain ⟨r, hr, hb⟩ := exists_of_mem_exportBarriers hb
  have hmem : (r, b.resource) ∈ (g.get k).zipIdx.filter (·.1.exported.isSome) :=
    List.mem_filter.2 ⟨List.mk_mem_zipIdx_iff_getElem?.2 hr, (Resource.of_mem_exportBarriers hb).2⟩
  unfold Registry.exportedKeys
  cases k
  · exact List.mem_append_left _ (List.mem_map.2 ⟨_, hmem, rfl⟩)
  · exact List.mem_append_right _ (List.mem_map.2 ⟨_, hmem, rfl⟩)

/-- nothing goes wrong in working out the barriers to the export states -/
theorem Registry.Ready.checkExport_ok (h : g.Ready) (k : ResourceKind) :
    (g.get k).forM Resource.checkExport = .ok () := by
  refine forM_ok fun r hr => ?_
  unfold Resource.checkExport
  split
  · exact Tracker.check_ok (h k r hr).valid _ _
  · rfl

/-- **Making the export batch never faults, and the batch is the exact difference to the export states.** Each barrier of
it is one to an export state, with another part if it was merged. -/
theorem exportBatch_inv (h : g.Ready) (settings : Settings) :
    ∃ batch, exportBatch settings g = .ok batch ∧
      ∀ k, Moves g.layout (g.world k) (g.deliver g.world k) (batch.get k) ∧
        ∀ b ∈ batch.get k, ∃ c ∈ ((g.get k).mapIdx fun i r => r.exportBarriers i).flatten, ∃ p, b = { c with part := p } := by
  have htextures : g.textures.forM Resource.checkExport = .ok () := h.checkExport_ok .texture
  have hbuffers : g.buffers.forM Resource.checkExport = .ok () := h.checkExport_ok .buffer
  by_cases hm : settings.merge = true
  · have hmerge := fun k => (moves_exportBarriers h k).merge fun n size hn => Registry.boundsOf_of_layout hn
    obtain ⟨ts, et, -, ht, -⟩ := hmerge .texture
    obtain ⟨bs, eb, -, hb, -⟩ := hmerge .buffer
    have hts := exists_of_mergeBarriers et
    have hbs := exists_of_mergeBarriers eb
    simp only [Both.get] at et eb
    refine ⟨⟨ts, bs⟩, ?_, fun k => ?_⟩
    · rw [exportBatch, htextures, hbuffers, if_pos hm]
      simp only [Both.ofFun, Both.get, et, eb]
      rfl
    · cases k
      · exact ⟨ht, hts⟩
      · exact ⟨hb, hbs⟩
  · refine ⟨.ofFun fun k => ((g.get k).mapIdx fun i r => r.exportBarriers i).flatten, ?_, fun k => ?_⟩
    · rw [exportBatch, htextures, hbuffers, if_neg hm]
      rfl
    · rw [Both.get_ofFun]
      exact ⟨moves_exportBarriers h k, fun b hb => ⟨b, hb, b.part, rfl⟩⟩

/-- the export batch has barriers on exported resources only -/
theorem exportBatch_moves (h : g.Ready) (settings : Settings) :
    ∃ batch, exportBatch settings g = .ok batch ∧
      ∀ k, Moves g.layout (g.world k) (g.deliver g.world k) (batch.get k) ∧
        ∀ b ∈ batch.get k, ⟨k, b.resource⟩ ∈ g.exportedKeys := by
  obtain ⟨batch, hb, hbatch⟩ := exportBatch_inv h settings
  refine ⟨batch, hb, fun k => ⟨(hbatch k).1, fun b hm => ?_⟩⟩
  obtain ⟨c, hc, p, rfl⟩ := (hbatch k).2 b hm
  exact @mem_exportedKeys_of_mem k g c hc

end FrameGraph
