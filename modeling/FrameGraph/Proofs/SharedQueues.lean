/-
A frame on two queues whose records share native objects.

What a pass waits for goes by records: the last accesses are remembered for each record, not for the native object behind
it. So two passes that use one object are ordered if they use it through one record, and if they use it through two, only
by a wait that is made for something else.

- `WaitsExactly.handover_iff`: between two passes on different queues there is a handover if and only if, from behind the
  first up to the second, a pass of the second one's queue comes when something is outstanding.
- `executeAsync_objects`: so it is for two passes that conflict on a native object, and one record is enough for it.
- `crossed_unordered`: with two records the passes may be left unordered, although the barrier of the second pass is
  dropped because the first pass has run before it.
-/
import FrameGraph.Proofs.Waits
import FrameGraph.Proofs.Redundancy

namespace FrameGraph

variable {g g' : Graph}

/-- the handover, read off the streams of the two queues -/
theorem Handover.streams {source waiter : Queue} {mid : List Block} (h : Handover source waiter mid) (fences : Fences)
    (before after : List Block) :
    ∃ value satisfied, .signal source value ∈ Log.stream ⟨fences, mid ++ after⟩ source ∧
      .wait source value satisfied ∈ Log.stream ⟨fences, before ++ mid⟩ waiter := by
  obtain ⟨value, satisfied, hsub⟩ := h
  refine ⟨value, satisfied, Log.mem_stream.2 ⟨.ofSignal source value, ?_, rfl, List.mem_cons_self⟩,
    Log.mem_stream.2 ⟨.ofWait source waiter value satisfied, ?_, rfl, List.mem_cons_self⟩⟩
  · exact List.mem_append_left _ (hsub.subset List.mem_cons_self)
  · exact List.mem_append_right _ (hsub.subset (List.mem_cons_of_mem _ List.mem_cons_self))

/-! ## Conflicts on native objects -/

/-- the native object behind a record -/
def Registry.object (r : Registry) (key : Key) : Option (ResourceKind × Nat) :=
  (((r.get key.kind)[key.index]?).bind Resource.native).map (key.kind, ·)

namespace Pass

variable {p : Pass} {key : Key}

/-- the records a pass uses or has barriers on -/
def touchedKeys (p : Pass) : List Key := p.usages.map Usage.key ++ p.transitioned

theorem Uses.mem_touchedKeys (h : p.Uses key) : key ∈ p.touchedKeys := by
  obtain ⟨u, hu, rfl⟩ := h
  exact List.mem_append_left _ (List.mem_map_of_mem hu)

theorem Alters.mem_touchedKeys (h : p.Alters key) : key ∈ p.touchedKeys := by
  rcases h with ⟨u, hu, hk, -⟩ | h
  · exact Uses.mem_touchedKeys ⟨u, hu, hk⟩
  · exact List.mem_append_right _ h

end Pass

namespace Graph

/-- both passes use the native object, through whatever records, and one of them alters it -/
def ConflictOn (g : Graph) (object : ResourceKind × Nat) (p q : Pass) : Prop :=
  (∃ key, g.registry.object key = some object ∧ p.Uses key) ∧
    (∃ key, g.registry.object key = some object ∧ q.Uses key) ∧
    ∃ key, g.registry.object key = some object ∧ (p.Alters key ∨ q.Alters key)

/-- both passes use and alter the native object through the same record -/
def ThroughOneRecord (g : Graph) (object : ResourceKind × Nat) (p q : Pass) : Prop :=
  ∃ record, ∀ key ∈ p.touchedKeys ++ q.touchedKeys, g.registry.object key = some object → key = record

/-- passes that conflict on an object they use through one record conflict on the record -/
theorem ConflictOn.conflicts {object : ResourceKind × Nat} {p q : Pass} (h : g.ConflictOn object p q)
    (hone : g.ThroughOneRecord object p q) : p.Conflicts q := by
  obtain ⟨⟨m, hm, hp⟩, ⟨n, hn, hq⟩, l, hl, ha⟩ := h
  obtain ⟨record, hrecord⟩ := hone
  obtain rfl := hrecord m (List.mem_append_left _ hp.mem_touchedKeys) hm
  obtain rfl := hrecord n (List.mem_append_right _ hq.mem_touchedKeys) hn
  obtain rfl : l = n := by
    refine hrecord l ?_ hl
    exact ha.elim (List.mem_append_left _ ·.mem_touchedKeys) (List.mem_append_right _ ·.mem_touchedKeys)
  exact ⟨l, hp, hq, ha⟩

/-! ## When two passes are ordered -/

/-- behind a block and up to another, a pass on the queue of the other comes when something is outstanding -/
def DueBetween (g : Graph) (before : List Block) (x : Block) (mid : List Block) (y : Block) : Prop :=
  ∃ earlier z later, mid ++ [y] = earlier ++ z :: later ∧ z.queue = y.queue ∧ z.source.isPass = true ∧
    g.Outstanding (beforeSyncs (before ++ x :: earlier)) z

section Between

variable {blocks before mid after : List Block} {x y : Block}

/-- a wait that ends the blocks before a pass, and the signal before it, lie behind every earlier pass -/
theorem WaitsExactly.handover_of_endsInWait (h : g.WaitsExactly (before ++ x :: mid ++ after))
    (hx : x.source.isPass = true) {q : Queue} (hends : EndsInWait q.other (before ++ x :: mid)) :
    Handover q q.other mid := by
  obtain ⟨value, satisfied, earlier, e⟩ := hends
  rw [Queue.other_other] at e
  obtain ⟨⟨c, rfl⟩, -⟩ := h.latest earlier q value satisfied after (by rw [← e, List.append_assoc]; rfl)
  rw [List.append_assoc] at e
  rcases eq_append_or_eq_append e with ⟨mid', -, rfl⟩ | ⟨more, hmore, -⟩
  · exact ⟨value, satisfied, List.sublist_append_right mid' _⟩
  · -- a signal or wait is no pass
    have hmem : x ∈ [Block.ofSignal q value] ++ [.ofWait q q.other value satisfied] :=
      hmore ▸ List.mem_append_right more List.mem_cons_self
    rcases List.mem_pair.1 hmem with rfl | rfl <;> cases hx

/-- **Two passes are ordered if and only if something was due between them.** -/
theorem WaitsExactly.handover_iff (h : g.WaitsExactly blocks) (e : blocks = before ++ x :: mid ++ y :: after)
    (hx : x.source.isPass = true) (hq : x.queue ≠ y.queue) :
    Handover x.queue y.queue mid ↔ g.DueBetween before x mid y := by
  have hq : y.queue = x.queue.other := Queue.eq_other_of_ne hq.symm
  subst e
  constructor
  · rintro ⟨value, satisfied, hsub⟩
    rw [hq] at hsub
    obtain ⟨mid₁, mid₂, rfl⟩ :=
      List.append_of_mem (hsub.subset (List.mem_cons_of_mem _ List.mem_cons_self))
    let wait := Block.ofWait x.queue x.queue.other value satisfied
    -- what follows the wait
    obtain ⟨z, later, hz⟩ : ∃ z later, mid₂ ++ [y] = z :: later :=
      List.exists_cons_of_ne_nil (List.append_ne_nil_of_right_ne_nil mid₂ (List.cons_ne_nil y []))
    have e : before ++ x :: (mid₁ ++ wait :: mid₂) ++ y :: after =
        (before ++ x :: (mid₁ ++ [wait])) ++ z :: (later ++ after) := by
      have hz : mid₂ ++ y :: after = z :: (later ++ after) := by
        rw [List.append_cons, hz, List.cons_append]
      simp only [List.append_assoc, List.cons_append, List.nil_append, hz]
    have hends : EndsInWait y.queue (before ++ x :: (mid₁ ++ [wait])) := by
      refine ⟨value, satisfied, before ++ x :: mid₁, ?_⟩
      rw [hq, Queue.other_other, List.append_assoc, List.cons_append]
    obtain ⟨hzq, hzp⟩ := h.followed.1 _ _ z _ e hends
    refine ⟨mid₁ ++ [wait], z, later, ?_, hzq, hzp, (h.passes _ z _ e hzp).1 (hzq ▸ hends)⟩
    rw [List.append_assoc, List.cons_append, hz, List.append_assoc]
    rfl
  · rintro ⟨earlier, z, later, hz, hzq, hzp, hout⟩
    have e : before ++ x :: mid ++ y :: after = before ++ x :: earlier ++ z :: (later ++ after) := by
      have hz : mid ++ y :: after = earlier ++ z :: (later ++ after) := by
        rw [List.append_cons, hz, List.append_assoc, List.cons_append]
      simp only [List.append_assoc, List.cons_append, hz]
    have hends : EndsInWait z.queue (before ++ x :: earlier) := (h.passes _ z _ e hzp).2 hout
    rw [hzq, hq] at hends
    rw [e] at h
    have hover := h.handover_of_endsInWait hx hends
    -- the blocks before it are among those in between
    rw [hq]
    rcases eq_append_or_eq_append hz with ⟨mid', rfl, -⟩ | ⟨more, hmore, rfl⟩
    · exact hover.append_right (z :: mid')
    · obtain ⟨rfl, -⟩ := eq_of_singleton_eq_append hmore
      rwa [List.append_nil] at hover

end Between

/-- **Cross-queue safety per native object, as far as it goes.** Of two passes on different queues that conflict on a native
object, the second one's queue waits for the first one if they use the object through one record; in general it does if and
only if something was due between them. -/
theorem executeAsync_objects {fences : Fences} {log : Log} (h : g.executeAsync (.both true) fences = .ok (g', log)) :
    ∃ blocks batch, log.blocks = blocks ++ exportBlocks batch ∧
      Recorded g.settings.events (fun p => p.kind.queue) g.walk blocks ∧
      ∀ before x mid y after p q object, blocks = before ++ x :: mid ++ y :: after →
        x.IsOf g.passes p → y.IsOf g.passes q → x.queue ≠ y.queue → g.ConflictOn object p q →
        (Handover x.queue y.queue mid ↔ g.DueBetween before x mid y) ∧
        (g.ThroughOneRecord object p q → Handover x.queue y.queue mid ∧
          ∃ value satisfied, .signal x.queue value ∈ Log.stream ⟨log.fences, mid ++ y :: after⟩ x.queue ∧
            .wait x.queue value satisfied ∈ Log.stream ⟨log.fences, before ++ x :: mid⟩ y.queue) := by
  obtain ⟨run, run', batch, -, hw, e⟩ := executeAsync_waited h
  refine ⟨run'.log.blocks, batch, e, hw.recorded, fun before x mid y after p q object e hx hy hq hc => ⟨?_, fun hone => ?_⟩⟩
  · obtain ⟨i, hi, -⟩ := hx
    exact hw.waitsExactly.handover_iff e (by rw [hi]; rfl) hq
  · have hover : Handover x.queue y.queue mid :=
      hw.ordered before x mid y after e ⟨hq, p, hx, .inl ⟨q, hy, hc.conflicts hone⟩⟩
    refine ⟨hover, ?_⟩
    obtain ⟨value, satisfied, hs, hwait⟩ := hover.streams log.fences (before ++ [x]) (y :: after)
    rw [← List.append_cons] at hwait
    exact ⟨value, satisfied, hs, hwait⟩

/-- two records of one texture; a compute pass writes the first one, and then a graphics pass writes some record -/
def crossed (record : Nat) : Graph :=
  let g := ((new {}).importNative (k := .texture) 9 .blank .shaderResource).1
  let g := (g.importNative (k := .texture) 9 .blank .shaderResource).1
  let g := (g.addPass "fill" .compute [.access ⟨.texture, ⟨0, none⟩⟩ .unorderedAccess .write] fun _ => []).1
  (g.addPass "draw" .graphics [.access ⟨.texture, ⟨record, none⟩⟩ .unorderedAccess .write] fun _ => []).1

theorem built_crossed (record : Nat) : (crossed record).Built :=
  .addPass _ _ _ _ (.addPass _ _ _ _ (.importNative .texture _ _ _ (.importNative .texture _ _ _ (.new _))))

/-- if both passes use the first record, the graphics queue waits for the compute queue, and else nothing is signaled -/
theorem crossed_runs : ∀ record < 2, ∃ g' stats s' g'' log p q,
    (crossed record).compile CountingDevice.device {} = .ok (g', .ok stats, s') ∧ stats.redundantDropped = record ∧
    g'.executeAsync (.both true) (.both .new) = .ok (g'', log) ∧
    log.blocks.map (fun b => (b.queue, b.source)) = (.compute, .pass 0) ::
      ((if record = 0 then [(.compute, .sync), (.graphics, .sync)] else []) ++ [(.graphics, .pass 1)]) ∧
    g'.passes = [p, q] ∧ g'.ConflictOn (.texture, 9) p q ∧
    p.touchedKeys = [⟨.texture, 0⟩, ⟨.texture, 0⟩] ∧ q.touchedKeys = [⟨.texture, record⟩] := by
  have h : ∀ record < 2, (match (crossed record).compile CountingDevice.device {} with
      | .ok (g', .ok stats, _) =>
        match g'.executeAsync (.both true) (.both .new) with
        | .ok (_, log) =>
          decide (stats.redundantDropped = record) &&
            decide (log.blocks.map (fun b => (b.queue, b.source)) = (.compute, .pass 0) ::
              ((if record = 0 then [(.compute, .sync), (.graphics, .sync)] else []) ++ [(.graphics, .pass 1)])) &&
            decide (g'.passes.length = 2) &&
            (g'.passes[0]?.any fun p => decide ((g'.registry.object ⟨.texture, 0⟩ = some (.texture, 9) ∧
              p.Uses ⟨.texture, 0⟩ ∧ p.Alters ⟨.texture, 0⟩) ∧ p.touchedKeys = [⟨.texture, 0⟩, ⟨.texture, 0⟩])) &&
            (g'.passes[1]?.any fun q => decide ((g'.registry.object ⟨.texture, record⟩ = some (.texture, 9) ∧
              q.Uses ⟨.texture, record⟩) ∧ q.touchedKeys = [⟨.texture, record⟩]))
        | _ => false
      | _ => false) = true := by decide +kernel
  intro record hr
  have h := h record hr
  split at h
  · rename_i g' stats s' hc
    split at h
    · rename_i g'' log hrun
      simp only [Bool.and_eq_true, decide_eq_true_eq] at h
      obtain ⟨⟨⟨⟨hdropped, hblocks⟩, hlength⟩, hp⟩, hq⟩ := h
      obtain ⟨p, q, hpasses⟩ := List.length_eq_two.1 hlength
      simp only [hpasses, List.getElem?_cons_zero, List.getElem?_cons_succ, Option.any_some, decide_eq_true_eq] at hp hq
      obtain ⟨⟨hobject, huses, halters⟩, hkeys⟩ := hp
      obtain ⟨⟨hobject', huses'⟩, hkeys'⟩ := hq
      exact ⟨g', stats, s', g'', log, p, q, hc, hdropped, hrun, hblocks, hpasses,
        ⟨⟨_, hobject, huses⟩, ⟨_, hobject', huses'⟩, _, hobject, .inl halters⟩, hkeys, hkeys'⟩
    · cases h
  · cases h

/-- both passes use the first record, and the second one is ordered behind the first -/
theorem executeAsync_objects_crossed : ∃ g' stats s' g'' log p q,
    (crossed 0).compile CountingDevice.device {} = .ok (g', .ok stats, s') ∧
    g'.executeAsync (.both true) (.both .new) = .ok (g'', log) ∧ g'.passes = [p, q] ∧
    g'.ConflictOn (.texture, 9) p q ∧ g'.ThroughOneRecord (.texture, 9) p q ∧
    ∃ blocks batch, log.blocks = blocks ++ exportBlocks batch ∧
      Recorded g'.settings.events (fun p => p.kind.queue) g'.walk blocks ∧
      ∀ before x mid y after p q object, blocks = before ++ x :: mid ++ y :: after →
        x.IsOf g'.passes p → y.IsOf g'.passes q → x.queue ≠ y.queue → g'.ConflictOn object p q →
        (Handover x.queue y.queue mid ↔ g'.DueBetween before x mid y) ∧
        (g'.ThroughOneRecord object p q → Handover x.queue y.queue mid ∧
          ∃ value satisfied, .signal x.queue value ∈ Log.stream ⟨log.fences, mid ++ y :: after⟩ x.queue ∧
            .wait x.queue value satisfied ∈ Log.stream ⟨log.fences, before ++ x :: mid⟩ y.queue) := by
  obtain ⟨g', stats, s', g'', log, p, q, hc, -, hrun, -, hpasses, hconflict, hp, hq⟩ := crossed_runs 0 (by decide)
  refine ⟨g', stats, s', g'', log, p, q, hc, hrun, hpasses, hconflict, ⟨⟨.texture, 0⟩, fun key hkey _ => ?_⟩,
    executeAsync_objects hrun⟩
  simpa [hp, hq] using hkey

/-- **Through two records the passes are left unordered:** nothing is signaled. Yet the barrier of the second pass has been
dropped, for the first pass leaves the texture in the state it asks for. -/
theorem crossed_unordered : (crossed 1).Built ∧ ∃ g' stats s' g'' log p q x y,
    (crossed 1).compile CountingDevice.device {} = .ok (g', .ok stats, s') ∧ stats.redundantDropped = 1 ∧
    g'.executeAsync (.both true) (.both .new) = .ok (g'', log) ∧ log.blocks = [x, y] ∧
    x.IsOf g'.passes p ∧ y.IsOf g'.passes q ∧ x.queue ≠ y.queue ∧ g'.ConflictOn (.texture, 9) p q ∧
    ¬ Handover x.queue y.queue [] := by
  obtain ⟨g', stats, s', g'', log, p, q, hc, hdropped, hrun, hblocks, hpasses, hconflict, -⟩ := crossed_runs 1 (by decide)
  obtain ⟨x, hx, y, hy, e⟩ : ∃ x, (x.queue, x.source) = (.compute, .pass 0) ∧ ∃ y,
      (y.queue, y.source) = (.graphics, .pass 1) ∧ log.blocks = [x, y] := by
    obtain ⟨x, blocks, e, hx, hblocks⟩ := List.map_eq_cons_iff.1 hblocks
    obtain ⟨y, rfl, hy⟩ := List.map_eq_singleton_iff.1 hblocks
    exact ⟨x, hx, y, hy, e⟩
  obtain ⟨hxq, hxs⟩ := Prod.mk.inj hx
  obtain ⟨hyq, hys⟩ := Prod.mk.inj hy
  refine ⟨built_crossed 1, g', stats, s', g'', log, p, q, x, y, hc, hdropped, hrun, e,
    ⟨0, hxs, by rw [hpasses]; rfl⟩, ⟨1, hys, by rw [hpasses]; rfl⟩, ?_, hconflict, ?_⟩
  · rw [hxq, hyq]
    exact Queue.noConfusion
  · rintro ⟨value, satisfied, hsub⟩
    cases hsub

end Graph

end FrameGraph
