/-
One queue or two: the work is the same.

The two ways of running a graph are told apart by the signals and waits between the blocks of passes, and by the queue each
block is on. If the callbacks ask for the same at every run, and for no signals or waits (`Pass.Steady`), the rest of the
two logs is equal: the same blocks in the same order (`Graph.work`), and the same batch of exports behind them.

- `Pass.Steady.record`: what a steady pass writes down depends neither on the fences nor on how often it has run.
- `WithSyncs`: some work, with blocks in between that only signal and wait. Running on two queues adds nothing else to the
  work of a walk.
- `TwoQueueRun.Room`: how many values the fences can still hand out. A pass needs one at most, and so do the exports.
- `Built.exists_exportBatch`, `Built.walk_indices`: compiled or not, a built graph has an export batch and walks the passes
  that are not culled, each once.
- `executeAsync_same_work`: the streams of the two queues, without signals and waits, are the stream of one queue taken
  apart.
-/
import FrameGraph.Proofs.Lifecycle
import FrameGraph.Proofs.Schedules

namespace FrameGraph

variable {g g' : Graph}

/-! ## Steady passes -/

/-- the action asks for a signal or a wait -/
def Action.isSync : Action → Bool
  | signal _ _ => true
  | wait _ _ => true
  | _ => false

/-- the callback asks for the same at every run, and for no signals or waits -/
def Pass.Steady (p : Pass) : Prop :=
  ∃ asked : List Action, (∀ run, p.callback run = asked) ∧ ∀ a ∈ asked, a.isSync = false

/-- what a pass writes down on a context that leaves out signals and waits -/
def Pass.written (events : Bool) (p : Pass) : List Command := Action.record false (.both .new) (p.actions events)

/-- without signals and waits it makes no difference where the fences are and which context it is, and the fences stay -/
theorem Action.record_of_not_sync {actions : List Action} (h : ∀ a ∈ actions, a.isSync = false) (syncs : Bool)
    (fences : Fences) :
    Action.record syncs fences actions = Action.record false (.both .new) actions ∧
      Action.advanceAll syncs fences actions = fences := by
  induction actions with
  | nil => exact ⟨rfl, rfl⟩
  | cons a actions ih =>
    obtain ⟨ha, h⟩ := List.forall_mem_cons.1 h
    obtain ⟨ihrecord, ihfences⟩ := ih h
    cases a with
    | signal | wait => cases ha
    | _ => exact ⟨congrArg (_ :: ·) ihrecord, ihfences⟩

/-- signals and waits are written down for actions that ask for them, and for no others -/
theorem Action.isSync_of_command? {a : Action} {syncs : Bool} {fences : Fences} {c : Command}
    (h : a.command? syncs fences = some c) : c.isSync = a.isSync := by
  cases a <;> cases syncs <;> cases h <;> rfl

namespace Pass.Steady

variable {p : Pass}

theorem actions (h : p.Steady) (events : Bool) : ∀ a ∈ p.actions events, a.isSync = false := by
  obtain ⟨asked, hasked, hs⟩ := h
  intro a ha
  rcases Pass.of_mem_actions ha with (rfl | rfl | rfl) | ha
  · rfl
  · rfl
  · rfl
  · exact hs a (hasked _ ▸ ha)

/-- **A steady pass writes the same down on any context, and leaves the fences alone.** -/
theorem record (h : p.Steady) (events syncs : Bool) (fences : Fences) :
    Action.record syncs fences (p.actions events) = p.written events ∧
      Action.advanceAll syncs fences (p.actions events) = fences :=
  Action.record_of_not_sync (h.actions events) syncs fences

/-- so it does at any run -/
theorem written_runs (h : p.Steady) (events : Bool) (runs : Nat) : { p with runs }.written events = p.written events := by
  obtain ⟨asked, hasked, -⟩ := h
  have e : { p with runs }.actions events = p.actions events := by
    simp only [Pass.actions, hasked]
  rw [written, e]
  rfl

end Pass.Steady

/-! ## The work of a walk -/

/-- the block of a pass, on the queue for its kind -/
def Block.work (events : Bool) (on : PassKind → Queue) (x : Nat × Pass) : Block :=
  ⟨on x.2.kind, .pass x.1, x.2.written events⟩

/-- the blocks of the passes a graph walks -/
def Graph.work (g : Graph) (on : PassKind → Queue) : List Block := g.walk.map (Block.work g.settings.events on)

namespace Graph

/-- all passes are steady -/
def Steady (g : Graph) : Prop := ∀ p ∈ g.passes, p.Steady

theorem Steady.walk (h : g.Steady) : ∀ x ∈ g.walk, x.2.Steady := fun _ hx =>
  h _ (List.mem_of_getElem? (of_mem_walk hx).1)

/-- it is up to the declared passes whether a graph is steady -/
theorem Steady.of_afresh (h : g.Steady) (e : g'.passes.map Pass.afresh = g.passes.map Pass.afresh) : g'.Steady := by
  intro p hp
  have hmem : p.afresh ∈ g.passes.map Pass.afresh := e ▸ List.mem_map_of_mem hp
  obtain ⟨p₀, hp₀, e₀⟩ := List.mem_map.1 hmem
  have hcallback : p₀.callback = p.callback := show p₀.afresh.callback = p.afresh.callback by rw [e₀]
  obtain ⟨asked, hasked, hsync⟩ := h p₀ hp₀
  exact ⟨asked, hcallback ▸ hasked, hsync⟩

/-- compiling a graph leaves it steady, whatever the answer of the device -/
theorem Steady.compile {σ : Type} {dev : Device σ} {s s' : σ} {answer : Except AllocationError Stats} (h : g.Steady)
    (hc : g.compile dev s = .ok (g', answer, s')) : g'.Steady := by
  cases answer with
  | error e =>
    rw [compile_error_inv hc]
    exact h
  | ok stats =>
    obtain ⟨registry, plan, -, hp, rfl⟩ := compile_inv hc
    exact h.of_afresh (afresh_compilePasses hp)

theorem Steady.afterRun (h : g.Steady) : g.afterRun.Steady := by
  intro p hp
  obtain ⟨i, hi, rfl⟩ := List.mem_mapIdx.1 hp
  exact h g.passes[i] (List.getElem_mem hi)

theorem Steady.work_afterRun (h : g.Steady) (on : PassKind → Queue) : g.afterRun.work on = g.work on := by
  rw [work, work, walk_afterRun, List.map_map]
  refine List.map_congr_left fun x hx => ?_
  exact congrArg (Block.mk (on x.2.kind) (.pass x.1)) ((h.walk x hx).written_runs g.settings.events _)

/-- **The work is the same however often the graph has run.** -/
theorem Steady.work_afterRuns (h : g.Steady) (runs : Nat) :
    (Graph.afterRun^[runs] g).Steady ∧ ∀ on, (Graph.afterRun^[runs] g).work on = g.work on := by
  induction runs with
  | zero => exact ⟨h, fun _ => rfl⟩
  | succ runs ih =>
    rw [Function.iterate_succ_apply']
    exact ⟨ih.1.afterRun, fun on => (ih.1.work_afterRun on).trans (ih.2 on)⟩

end Graph

/-! ## Work with signals and waits in between -/

/-- some work, with blocks in between that only signal and wait -/
structure WithSyncs (work blocks : List Block) : Prop where
  rest : blocks.filter (fun b => decide (b.source ≠ .sync)) = work
  syncs : ∀ b ∈ blocks, b.source = .sync → ∀ c ∈ b.commands, c.isSync = true

namespace WithSyncs

variable {work work' blocks blocks' : List Block} {b : Block}

theorem nil : WithSyncs [] [] := ⟨rfl, fun _ hb => nomatch hb⟩

theorem append (h : WithSyncs work blocks) (h' : WithSyncs work' blocks') :
    WithSyncs (work ++ work') (blocks ++ blocks') := by
  refine ⟨?_, fun b hb => ?_⟩
  · rw [List.filter_append, h.rest, h'.rest]
  · exact (List.mem_append.1 hb).elim (h.syncs b) (h'.syncs b)

theorem of_work (hb : b.source ≠ .sync) : WithSyncs [b] [b] := by
  refine ⟨List.filter_cons_of_pos (decide_eq_true hb), fun c hc hs => ?_⟩
  rw [List.mem_singleton.1 hc] at hs
  exact absurd hs hb

theorem of_sync (hb : b.source = .sync) (hc : ∀ c ∈ b.commands, c.isSync = true) : WithSyncs [] [b] := by
  refine ⟨List.filter_cons_of_neg (by simp [hb]), fun c h _ => ?_⟩
  rw [List.mem_singleton.1 h]
  exact hc

end WithSyncs

namespace TwoQueueRun

variable {run run' : TwoQueueRun} {syncs : PerQueue Bool}

/-- recording one action that asks for a signal or a wait adds no work -/
theorem withSyncs_record (syncs : PerQueue Bool) (log : Log) (queue : Queue) {a : Action} (ha : a.isSync = true) :
    ∃ more, (log.record syncs queue .sync [a]).blocks = log.blocks ++ more ∧ WithSyncs [] more := by
  refine ⟨_, rfl, .of_sync rfl fun c hc => ?_⟩
  obtain ⟨a', hmem, fences, h⟩ := Action.exists_of_mem_record hc
  rw [Action.isSync_of_command? h, List.mem_singleton.1 hmem, ha]

/-- **Waiting adds no work,** on whatever contexts. -/
theorem withSyncs_waitIfNeeded {waiter : Queue} {dependency : Option Nat}
    (h : run.waitIfNeeded syncs waiter dependency = .ok run') :
    ∃ more, run'.log.blocks = run.log.blocks ++ more ∧ WithSyncs [] more := by
  cases dependency with
  | none =>
    cases h
    exact ⟨[], (List.append_nil _).symm, .nil⟩
  | some position =>
    obtain ⟨⟨value, run₁⟩, hsignal, h⟩ := bind_eq_ok.1 h
    obtain ⟨more, e, hmore⟩ : ∃ more, run₁.log.blocks = run.log.blocks ++ more ∧ WithSyncs [] more := by
      unfold signal at hsignal
      simp only at hsignal
      split at hsignal
      · cases hsignal
        exact ⟨[], (List.append_nil _).symm, .nil⟩
      · obtain ⟨⟨value', fence⟩, -, hsignal⟩ := bind_eq_ok.1 hsignal
        cases hsignal
        exact withSyncs_record _ _ _ rfl
    simp only at h
    split at h
    · cases h
      exact ⟨more, e, hmore⟩
    · cases h
      obtain ⟨more', e', hmore'⟩ := withSyncs_record syncs run₁.log waiter (a := .wait waiter.other value) rfl
      exact ⟨more ++ more', by rw [e', e, List.append_assoc], hmore.append hmore'⟩

/-- **One pass adds its own block.** -/
theorem withSyncs_step {events : Bool} {work : List Block} {i : Nat} {p : Pass} (hp : p.Steady)
    (h : WithSyncs work run.log.blocks) (hs : run.step syncs events i p = .ok run') :
    WithSyncs (work ++ [Block.work events PassKind.queue (i, p)]) run'.log.blocks := by
  obtain ⟨run₁, hwait, hs⟩ := bind_eq_ok.1 hs
  cases hs
  obtain ⟨more, e, hmore⟩ := withSyncs_waitIfNeeded hwait
  have hwork := h.append hmore
  rw [List.append_nil, ← e] at hwork
  rw [Log.record, (hp.record _ _ _).1]
  exact hwork.append (.of_work Source.noConfusion)

/-- a walk adds the blocks of its passes -/
theorem withSyncs_walk {events : Bool} {walk : List (Nat × Pass)} (hp : ∀ x ∈ walk, x.2.Steady) {fences : Fences}
    (h : walk.foldlM (fun (run : TwoQueueRun) (i, p) => run.step syncs events i p) { log := { fences } } = .ok run) :
    WithSyncs (walk.map (Block.work events PassKind.queue)) run.log.blocks := by
  let P : List (Nat × Pass) → TwoQueueRun → Prop := fun walked run =>
    WithSyncs (walked.map (Block.work events PassKind.queue)) run.log.blocks
  have hstart : P [] { log := { fences } } := .nil
  refine foldlM_induction hstart (fun x hx walked run run' hkept hstep => ?_) h
  change WithSyncs ((walked ++ [x]).map (Block.work events PassKind.queue)) run'.log.blocks
  rw [List.map_append]
  exact withSyncs_step (hp x hx) hkept hstep

/-! ## Room on the fences -/

/-- each fence can hand out so many values -/
def Room (n : Nat) (run : TwoQueueRun) : Prop := ∀ q, (run.log.fences.get q).issued + n ≤ maxWord64

/-- the next value of a fence is handed out and signaled -/
theorem issued_next_signal {fences : Fences} {source : Queue} {value : Nat} {fence : Fence}
    (h : (fences.get source).next = .ok (value, fence)) (syncs : Bool) (q : Queue) :
    (((Action.signal source value).advance syncs (fences.set source fence)).get q).issued ≤ (fences.get q).issued + 1 := by
  obtain ⟨rfl, rfl⟩ := Fence.next_fresh h
  rcases source.eq_or_eq_other q with rfl | rfl
  · cases syncs <;> simp [Action.advance, PerQueue.get_set_self, Fence.signal]
  · cases syncs <;> simp [Action.advance, PerQueue.get_set_other]

variable {n : Nat}

/-- a queue that has to wait takes one value at most -/
theorem Room.waitIfNeeded (h : run.Room (n + 1)) (syncs : PerQueue Bool) (waiter : Queue) (dependency : Option Nat) :
    ∃ run', run.waitIfNeeded syncs waiter dependency = .ok run' ∧ run'.Room n := by
  cases dependency with
  | none => exact ⟨run, rfl, fun q => (Nat.le_succ _).trans (h q)⟩
  | some position =>
    obtain ⟨value, run₁, hsignal, hroom⟩ : ∃ value run₁,
        run.signal syncs waiter.other position = .ok (value, run₁) ∧ run₁.Room n := by
      unfold signal
      simp only
      split
      · exact ⟨_, run, rfl, fun q => (Nat.le_succ _).trans (h q)⟩
      · have hlt : (run.log.fences.get waiter.other).issued + 1 ≤ maxWord64 :=
          (Nat.add_le_add_left (Nat.le_add_left 1 n) _).trans (h waiter.other)
        obtain ⟨value, fence, hnext⟩ : ∃ value fence, (run.log.fences.get waiter.other).next = .ok (value, fence) := by
          rw [Fence.next, checkedAdd_eq_ok hlt]
          exact ⟨_, _, rfl⟩
        rw [hnext]
        refine ⟨_, _, rfl, fun q => ?_⟩
        calc _ ≤ (run.log.fences.get q).issued + 1 + n := Nat.add_le_add_right (issued_next_signal hnext _ q) n
          _ ≤ maxWord64 := by rw [Nat.add_assoc, Nat.add_comm 1 n]; exact h q
    rw [TwoQueueRun.waitIfNeeded, waitFor, hsignal]
    simp only [bind, Except.bind]
    split
    · exact ⟨run₁, rfl, hroom⟩
    · exact ⟨_, rfl, hroom⟩

/-- a pass takes one at most, because its callback takes none -/
theorem Room.step (h : run.Room (n + 1)) (syncs : PerQueue Bool) (events : Bool) (i : Nat) {p : Pass} (hp : p.Steady) :
    ∃ run', run.step syncs events i p = .ok run' ∧ run'.Room n := by
  obtain ⟨run₁, hwait, hroom⟩ := h.waitIfNeeded syncs p.kind.queue (p.dependency run.accesses)
  rw [TwoQueueRun.step, hwait]
  refine ⟨_, rfl, fun q => ?_⟩
  simp only [Log.record, (hp.record _ _ _).2]
  exact hroom q

/-- **Fences with room for each pass see the walk through.** -/
theorem Room.walk {walk : List (Nat × Pass)} (h : run.Room (walk.length + n)) (syncs : PerQueue Bool) (events : Bool)
    (hp : ∀ x ∈ walk, x.2.Steady) :
    ∃ run', walk.foldlM (fun (run : TwoQueueRun) (i, p) => run.step syncs events i p) run = .ok run' ∧ run'.Room n := by
  induction walk generalizing run with
  | nil =>
    rw [List.length_nil, Nat.zero_add] at h
    exact ⟨run, rfl, h⟩
  | cons x walk ih =>
    obtain ⟨hx, hp⟩ := List.forall_mem_cons.1 hp
    rw [List.length_cons, Nat.add_right_comm] at h
    obtain ⟨run₁, hstep, hroom⟩ := h.step syncs events x.1 hx
    obtain ⟨run', hwalk, hroom⟩ := ih hroom hp
    refine ⟨run', ?_, hroom⟩
    rw [List.foldlM_cons]
    simp only [hstep]
    exact hwalk

end TwoQueueRun

/-! ## The two ways of running a graph -/

theorem Log.record_work (syncs : PerQueue Bool) (events : Bool) {walk : List (Nat × Pass)} (hp : ∀ x ∈ walk, x.2.Steady)
    (log : Log) :
    (walk.foldl (fun (log : Log) (i, p) => log.record syncs .graphics (.pass i) (p.actions events)) log).blocks =
      log.blocks ++ walk.map (Block.work events fun _ => .graphics) := by
  induction walk generalizing log with
  | nil => exact (List.append_nil _).symm
  | cons x walk ih =>
    obtain ⟨hx, hp⟩ := List.forall_mem_cons.1 hp
    rw [List.foldl_cons, ih hp]
    simp only [Log.record, (hx.record events _ _).1, List.append_assoc]
    rfl

namespace Graph

variable {syncs : PerQueue Bool} {fences : Fences} {log : Log} {batch : Batch}

/-- on one queue the work is all that is recorded, and then the exports -/
theorem Steady.execute (h : g.Steady) (syncs : PerQueue Bool) (fences : Fences)
    (hb : exportBatch g.settings g.registry = .ok batch) :
    ∃ log, g.execute syncs fences = .ok (g.afterRun, log) ∧
      log.blocks = g.work (fun _ => .graphics) ++ exportBlocks batch := by
  obtain ⟨log, blocks, hrun, -⟩ := @execute_recorded syncs fences g batch hb
  refine ⟨log, hrun, ?_⟩
  obtain ⟨log', hexports, hrun⟩ := bind_eq_ok.1 hrun
  cases hrun
  rw [Log.recordExports_eq hexports hb, Log.record_work syncs _ h.walk]
  rfl

/-- on two queues there are signals and waits in between -/
theorem Steady.executeAsync (h : g.Steady) (hb : exportBatch g.settings g.registry = .ok batch)
    (hrun : g.executeAsync syncs fences = .ok (g', log)) :
    g' = g.afterRun ∧ ∃ blocks, log.blocks = blocks ++ exportBlocks batch ∧ WithSyncs (g.work PassKind.queue) blocks := by
  obtain ⟨run, run', hwalk, hwait, hexports, rfl⟩ := executeAsync_stages hrun
  obtain ⟨more, hmore, hsyncs⟩ := TwoQueueRun.withSyncs_waitIfNeeded hwait
  have hwork := (TwoQueueRun.withSyncs_walk h.walk hwalk).append hsyncs
  rw [List.append_nil, ← hmore] at hwork
  exact ⟨rfl, run'.log.blocks, Log.recordExports_eq hexports hb, hwork⟩

/-- and the run comes to its end if the fences have room -/
theorem Steady.exists_executeAsync (h : g.Steady) (hb : exportBatch g.settings g.registry = .ok batch)
    (hroom : ∀ q, (fences.get q).issued + g.walk.length < maxWord64) :
    ∃ log, g.executeAsync syncs fences = .ok (g.afterRun, log) := by
  have hstart : TwoQueueRun.Room (g.walk.length + 1) { log := { fences } } := hroom
  obtain ⟨run, hwalk, hroom⟩ := hstart.walk syncs g.settings.events h.walk
  obtain ⟨run', hwait, -⟩ := TwoQueueRun.Room.waitIfNeeded (n := 0) hroom syncs .graphics
    (g.registry.exportDependency run.accesses)
  refine FrameGraph.Graph.exists_executeAsync hb fun e => ?_
  rw [Graph.executeAsync, hwalk] at e
  simp only [bind, Except.bind, hwait, Log.recordExports, hb] at e
  cases e

/-! ## Built graphs, compiled or not -/

/-- a compiled graph has records that are ready to be moved -/
theorem Built.ready (h : g.Built) (hc : g.compiled = true) : g.registry.Ready := by
  induction h with
  | new | clear => cases hc
  | create | importNative | addPass =>
    change (Graph.invalidate _).compiled = true at hc
    rw [compiled_invalidate] at hc
    cases hc
  | exportState h s _ ih =>
    unfold Graph.exportState at hc ⊢
    split at hc
    · rw [compiled_invalidate] at hc
      cases hc
    · exact ih hc
  | @compile g g' _ dev s s' answer hg hrun ih =>
    cases answer with
    | error e =>
      rw [compile_error_inv hrun] at hc
      cases hc
    | ok stats =>
      obtain ⟨registry, plan, hb, hp, rfl⟩ := compile_inv hrun
      obtain ⟨needed, after, raw, merged, final, removed, dropped, -, hs, -, -, rfl⟩ := compilePasses_eq_ok_iff.1 hp
      exact (synthesize_ready ((Registry.opened_of_back hg.coherent hb).noteWriters _).ready hs).1
  | afterRun _ ih => exact ih hc

/-- **A built graph has an export batch,** compiled or not. -/
theorem Built.exists_exportBatch (h : g.Built) : ∃ batch, exportBatch g.settings g.registry = .ok batch := by
  by_cases hc : g.compiled = true
  · obtain ⟨batch, hb, -⟩ := exportBatch_inv (h.ready hc) g.settings
    exact ⟨batch, hb⟩
  · exact ⟨_, (h.settled.idle (Bool.eq_false_iff.2 hc)).untouched.exportBatch g.settings⟩

/-- looking up indices and leaving out culled passes leaves out the indices of culled passes -/
theorem filter_indices (passes : List Pass) (indices : List Nat) :
    ((indices.filterMap fun i => passes[i]?.map (i, ·)).filter fun (_, p) => !p.plan.culled).map Prod.fst =
      indices.filter fun i => passes[i]?.any fun p => !p.plan.culled := by
  induction indices with
  | nil => rfl
  | cons i indices ih =>
    rw [List.filterMap_cons, List.filter_cons]
    cases passes[i]? with
    | none => exact ih
    | some p =>
      simp only [Option.map_some, Option.any_some, List.filter_cons]
      split
      · rw [List.map_cons, ih]
      · exact ih

/-- **A built graph walks the passes that are not culled, each once,** compiled or not. -/
theorem Built.walk_indices (h : g.Built) : g.walk.map Prod.fst =
    (List.range g.passes.length).filter fun i => g.passes[i]?.any fun p => !p.plan.culled := by
  rw [Graph.walk, filter_indices]
  by_cases hc : g.compiled = true
  · rw [if_pos hc, (h.settled.live hc).order, List.filter_filter]
    simp only [Bool.and_self]
  · rw [if_neg hc]

end Graph

/-! ## Reading the streams -/

/-- the pass it is, if it is one -/
def Source.pass? : Source → Option Nat
  | pass i => some i
  | sync => none
  | exports => none

/-- what the callback of a pass writes down on a context that leaves out signals and waits -/
def Pass.asked (p : Pass) : List Command := Action.record false (.both .new) (p.callback (p.runs + 1))

theorem Pass.written_eq (events : Bool) (p : Pass) : p.written events = p.opening events ++ p.asked ++ closing events :=
  p.record_actions false (.both .new) events

theorem Pass.isSync_eq_false_of_mem_written {events : Bool} {p : Pass} {c : Command} (hc : c ∈ p.written events) :
    c.isSync = false := by
  obtain ⟨a, -, fences, h⟩ := Action.exists_of_mem_record hc
  cases a <;> cases h <;> rfl

namespace WithSyncs

variable {work blocks : List Block} {b : Block}

theorem source_or_mem (h : WithSyncs work blocks) (hb : b ∈ blocks) : b.source = .sync ∨ b ∈ work := by
  by_cases hs : b.source = .sync
  · exact .inl hs
  · exact .inr (h.rest ▸ List.mem_filter.2 ⟨hb, decide_eq_true hs⟩)

/-- the export batch is work -/
theorem exports (batch : Batch) : WithSyncs (exportBlocks batch) (exportBlocks batch) := by
  unfold exportBlocks
  split
  · exact .of_work Source.noConfusion
  · exact .nil

/-- the passes are those of the work -/
theorem passes (h : WithSyncs work blocks) : blocks.filterMap (·.source.pass?) = work.filterMap (·.source.pass?) := by
  rw [← h.rest, List.filterMap_filter]
  refine List.filterMap_congr fun b _ => ?_
  split
  · rfl
  · next hs => rw [not_not.1 (mt decide_eq_true hs)]; rfl

/-- the stream of a queue without signals and waits is that of the work on it -/
theorem filter_stream (h : WithSyncs work blocks) (hwork : ∀ b ∈ work, ∀ c ∈ b.commands, c.isSync = false) (q : Queue) :
    ((blocks.filter (·.queue = q)).flatMap Block.commands).filter (fun c => !c.isSync) =
      (work.filter (·.queue = q)).flatMap Block.commands := by
  obtain ⟨rfl, hsyncs⟩ := h
  induction blocks with
  | nil => rfl
  | cons b blocks ih =>
    obtain ⟨hb, hsyncs⟩ := List.forall_mem_cons.1 hsyncs
    have hrest := ih hsyncs fun c hc => hwork c (((List.sublist_cons_self b blocks).filter _).subset hc)
    by_cases hs : b.source = .sync
    · have hnone : b.commands.filter (fun c => !c.isSync) = [] :=
        List.filter_eq_nil_iff.2 fun c hc => by simp [hb hs c hc]
      by_cases hq : b.queue = q
      · simpa [List.filter_cons, hs, hq, hnone] using hrest
      · simpa [List.filter_cons, hs, hq] using hrest
    · have hmem : b ∈ (b :: blocks).filter fun b => decide (b.source ≠ .sync) :=
        List.mem_filter.2 ⟨List.mem_cons_self, decide_eq_true hs⟩
      have hall : b.commands.filter (fun c => !c.isSync) = b.commands :=
        List.filter_eq_self.2 fun c hc => by simp [hwork b hmem c hc]
      by_cases hq : b.queue = q
      · simpa [List.filter_cons, hs, hq, hall] using hrest
      · simpa [List.filter_cons, hs, hq] using hrest

end WithSyncs

namespace Graph

/-- the block belongs on the queue: it is of a pass of a kind that runs there, or the exports on the graphics queue -/
def runsOn (g : Graph) (q : Queue) (b : Block) : Bool :=
  match b.source with
  | .pass i => g.passes[i]?.any fun p => p.kind.queue = q
  | .sync => false
  | .exports => q = .graphics

/-- the passes that are not culled, in registration order -/
def kept (g : Graph) : List Nat := (List.range g.passes.length).filter fun i => g.passes[i]?.any fun p => !p.plan.culled

/-- two queues do the work of one: the second log is the first one taken apart, with signals and waits in between -/
structure SameWork (g : Graph) (log log' : Log) : Prop where
  /-- everything is on the one queue -/
  alone : ∀ b ∈ log.blocks, b.queue = .graphics
  /-- the same export batch is last in both logs -/
  exports : ∃ passes passes' batch, log.blocks = passes ++ exportBlocks batch ∧ log'.blocks = passes' ++ exportBlocks batch ∧
    ∀ b ∈ passes ++ passes', b.source ≠ .exports
  /-- the stream of each of the two queues, without signals and waits -/
  streams : ∀ q, (log'.stream q).filter (fun c => !c.isSync) = (log.blocks.filter (g.runsOn q)).flatMap Block.commands
  /-- each pass that is not culled is called once -/
  called : log.blocks.filterMap (·.source.pass?) = g.kept ∧ log'.blocks.filterMap (·.source.pass?) = g.kept
  /-- the block of a pass is on the queue it runs on, and it is whole -/
  placed : ∀ b ∈ log'.blocks, ∀ i, b.source = .pass i → ∃ p, g.passes[i]? = some p ∧ b.queue = p.kind.queue ∧
    b.commands = p.opening g.settings.events ++ p.asked ++ Pass.closing g.settings.events
  /-- signals and waits are never inside a block -/
  apart : ∀ b ∈ log'.blocks, ∀ c ∈ b.commands, c.isSync = true ↔ b.source = .sync

theorem mem_work {on : PassKind → Queue} {b : Block} (hb : b ∈ g.work on) :
    ∃ i p, g.passes[i]? = some p ∧ b = ⟨on p.kind, .pass i, p.written g.settings.events⟩ := by
  obtain ⟨x, hx, rfl⟩ := List.mem_map.1 hb
  exact ⟨x.1, x.2, (of_mem_walk hx).1, rfl⟩

/-- there are no signals and waits in the work, nor in the exports -/
theorem isSync_eq_false_of_mem_work {on : PassKind → Queue} {batch : Batch} {b : Block}
    (hb : b ∈ g.work on ++ exportBlocks batch) {c : Command} (hc : c ∈ b.commands) : c.isSync = false := by
  rcases List.mem_append.1 hb with hb | hb
  · obtain ⟨i, p, -, rfl⟩ := mem_work hb
    exact Pass.isSync_eq_false_of_mem_written hc
  · rw [eq_of_mem_exportBlocks hb] at hc
    rw [List.mem_singleton.1 hc]
    rfl

/-- the passes of the work are those of the walk -/
theorem filterMap_work (on : PassKind → Queue) (batch : Batch) :
    (g.work on ++ exportBlocks batch).filterMap (·.source.pass?) = g.walk.map Prod.fst := by
  have hexports : (exportBlocks batch).filterMap (·.source.pass?) = [] :=
    List.filterMap_eq_nil_iff.2 fun b hb => by rw [eq_of_mem_exportBlocks hb]; rfl
  rw [List.filterMap_append, hexports, List.append_nil, work, List.filterMap_map]
  exact congrFun List.filterMap_eq_map g.walk

/-- **The work on a queue is the work that belongs there,** taken from the log of one queue. -/
theorem work_on_queue (batch : Batch) (q : Queue) :
    ((g.work PassKind.queue ++ exportBlocks batch).filter (·.queue = q)).flatMap Block.commands =
      ((g.work (fun _ => .graphics) ++ exportBlocks batch).filter (g.runsOn q)).flatMap Block.commands := by
  have hexports : (exportBlocks batch).filter (·.queue = q) = (exportBlocks batch).filter (g.runsOn q) :=
    List.filter_congr fun b hb => by
      rw [eq_of_mem_exportBlocks hb]
      simp only [runsOn, eq_comm]
  have hpasses : g.walk.filter (fun x => x.2.kind.queue = q) =
      g.walk.filter (g.runsOn q ∘ Block.work g.settings.events fun _ => .graphics) :=
    List.filter_congr fun x hx => by
      simp only [Function.comp, runsOn, Block.work, (of_mem_walk hx).1, Option.any_some]
  simp only [List.filter_append, List.flatMap_append, hexports, work, List.filter_map, List.flatMap_map]
  rw [← hpasses]
  rfl

/-- **Logs of the same work show it,** if one is on one queue and the other one has signals and waits in between. -/
theorem sameWork_of_work {log log' : Log} {batch : Batch} {blocks : List Block} (hwalk : g.walk.map Prod.fst = g.kept)
    (e : log.blocks = g.work (fun _ => .graphics) ++ exportBlocks batch) (e' : log'.blocks = blocks ++ exportBlocks batch)
    (hblocks : WithSyncs (g.work PassKind.queue) blocks) : g.SameWork log log' := by
  have hall : WithSyncs (g.work PassKind.queue ++ exportBlocks batch) log'.blocks := e' ▸ hblocks.append (.exports batch)
  constructor
  case alone =>
    intro b hb
    rw [e] at hb
    rcases List.mem_append.1 hb with hb | hb
    · obtain ⟨i, p, -, rfl⟩ := mem_work hb
      rfl
    · rw [eq_of_mem_exportBlocks hb]
  case exports =>
    refine ⟨_, blocks, batch, e, e', fun b hb hs => ?_⟩
    have hpass : b.source = .sync ∨ ∃ on, b ∈ g.work on := (List.mem_append.1 hb).elim (fun hb => .inr ⟨_, hb⟩)
      fun hb => (hblocks.source_or_mem hb).imp_right fun hb => ⟨_, hb⟩
    rcases hpass with hpass | ⟨on, hpass⟩
    · rw [hpass] at hs
      cases hs
    · obtain ⟨i, p, -, rfl⟩ := mem_work hpass
      cases hs
  case streams =>
    intro q
    rw [e, ← work_on_queue]
    exact hall.filter_stream (fun _ hb _ => isSync_eq_false_of_mem_work hb) q
  case called =>
    rw [hall.passes, e, filterMap_work, filterMap_work, hwalk]
    exact ⟨rfl, rfl⟩
  case placed =>
    intro b hb i hi
    rcases hall.source_or_mem hb with hs | hb
    · rw [hs] at hi
      cases hi
    rcases List.mem_append.1 hb with hb | hb
    · obtain ⟨j, p, hp, rfl⟩ := mem_work hb
      cases hi
      exact ⟨p, hp, rfl, p.written_eq _⟩
    · rw [eq_of_mem_exportBlocks hb] at hi
      cases hi
  case apart =>
    intro b hb c hc
    constructor
    · intro hsynced
      refine (hall.source_or_mem hb).resolve_right fun hwork => ?_
      rw [isSync_eq_false_of_mem_work hwork hc] at hsynced
      cases hsynced
    · exact fun hs => hall.syncs b hb hs c hc

/-- **Two queues do the work of one.** A graph whose callbacks ask for the same at every run, and for no signals or waits,
does the same work on two queues as on one queue, whether it is compiled or not and however often it has run before: the
streams without signals and waits are the stream of one queue taken apart. Running it succeeds as long as the fences do not
run out of values. -/
theorem executeAsync_same_work (h : g.Built) (hs : g.Steady) (runs runs' : Nat) (syncs syncs' : PerQueue Bool)
    (fences fences' : Fences) :
    let one := afterRun^[runs] g
    let two := afterRun^[runs'] g
    ∃ log, one.execute syncs fences = .ok (one.afterRun, log) ∧
      (∀ g' log', two.executeAsync syncs' fences' = .ok (g', log') → g' = two.afterRun ∧ g.SameWork log log') ∧
      ((∀ q, (fences'.get q).issued + g.walk.length < maxWord64) →
        ∃ log', two.executeAsync syncs' fences' = .ok (two.afterRun, log')) := by
  intro one two
  obtain ⟨batch, hb⟩ := h.exists_exportBatch
  have hbatch : ∀ n, exportBatch (afterRun^[n] g).settings (afterRun^[n] g).registry = .ok batch := fun n => by
    obtain ⟨hsettings, hregistry, -⟩ := unrun_eq_iff.1 (unrun_afterRuns g n)
    rw [hsettings, hregistry, hb]
  have hone := hs.work_afterRuns runs
  have htwo := hs.work_afterRuns runs'
  obtain ⟨log, hrun, e⟩ := hone.1.execute syncs fences (hbatch runs)
  rw [hone.2] at e
  refine ⟨log, hrun, fun g' log' hrun' => ?_, fun hroom => ?_⟩
  · obtain ⟨rfl, blocks, e', hblocks⟩ := htwo.1.executeAsync (hbatch runs') hrun'
    rw [htwo.2] at hblocks
    exact ⟨rfl, sameWork_of_work h.walk_indices e e' hblocks⟩
  · have hlength : two.walk.length = g.walk.length := by
      simpa only [work, List.length_map] using congrArg List.length (htwo.2 PassKind.queue)
    exact htwo.1.exists_executeAsync (hbatch runs') (hlength ▸ hroom)

/-- a compute pass writes half a buffer, and a graphics pass reads it and writes the rest; each callback marks its work by a
debug event -/
def marked : Graph :=
  let (g, b) := (new {}).importNative (k := .buffer) 7 ⟨none, 8, 0#_, 0⟩ .common
  let g := (g.addPass "fill" .compute [.access ⟨.buffer, b.restrict ⟨0, 4⟩⟩ .unorderedAccess .write]
    fun _ => [.beginEvent "dispatch", .endEvent]).1
  (g.addPass "draw" .graphics
    [.access ⟨.buffer, b.restrict ⟨0, 4⟩⟩ .shaderResource .read,
     .access ⟨.buffer, b.restrict ⟨4, 4⟩⟩ .unorderedAccess .write] fun _ => [.beginEvent "triangles", .endEvent]).1

theorem built_marked : marked.Built :=
  .addPass _ _ _ _ (.addPass _ _ _ _ (.importNative .buffer _ _ _ (.new _)))

theorem steady_marked : marked.Steady := by
  intro p hp
  rcases List.mem_cons.1 hp with rfl | hp
  · exact ⟨_, fun _ => rfl, by decide⟩
  · rw [List.mem_singleton.1 hp]
    exact ⟨_, fun _ => rfl, by decide⟩

/-- the marked frame runs on one queue and then on two, and its callbacks open their events on both -/
theorem executeAsync_same_work_sample :
    ∃ g' stats s', marked.compile CountingDevice.device {} = .ok (g', .ok stats, s') ∧
      g'.passes.map (fun p => Command.eventNames p.asked) = [["dispatch"], ["triangles"]] ∧
      ∃ log log', g'.execute (.both false) (.both .new) = .ok (g'.afterRun, log) ∧
        g'.afterRun.executeAsync (.both true) (.both .new) = .ok (g'.afterRun.afterRun, log') ∧ g'.SameWork log log' := by
  have h : (match marked.compile CountingDevice.device {} with
      | .ok (g', .ok _, _) => decide (g'.walk.length = 2) &&
          decide (g'.passes.map (fun p => Command.eventNames p.asked) = [["dispatch"], ["triangles"]])
      | _ => false) = true := by decide +kernel
  split at h
  · rename_i g' stats s' hc
    simp only [Bool.and_eq_true, decide_eq_true_eq] at h
    obtain ⟨hlength, hasked⟩ := h
    have hbuilt : g'.Built := .compile built_marked hc
    obtain ⟨log, hrun, hsame, hsucceeds⟩ :=
      executeAsync_same_work hbuilt (steady_marked.compile hc) 0 1 (.both false) (.both true) (.both .new) (.both .new)
    have hroom : ∀ q, ((PerQueue.both Fence.new).get q).issued + g'.walk.length < maxWord64 := by
      intro q
      rw [hlength]
      cases q <;> decide
    obtain ⟨log', hrun'⟩ := hsucceeds hroom
    exact ⟨g', stats, s', hc, hasked, log, log', hrun, hrun', (hsame _ _ hrun').2⟩
  · cases h

end Graph

end FrameGraph
