/-
A frame on two queues: work that conflicts is never left unordered.

Two passes conflict when both use a resource and one of them alters it. If they run on different queues, the queue of the
earlier one signals after it, and the other queue waits for that signal before it runs the later one (`Handover`). The
exports wait in the same way for every pass that uses an exported resource.

Only the last change of a resource and the last read on each queue are remembered, a signal made late enough serves
again, and a wait that an earlier one covers is left out. So the run is followed with an invariant (`TwoQueueRun.Inv`).

- `Tallied`: the last signal of a queue lies behind the work it stands for, and the other queue has waited for no more.
- `Accesses.Remember`: a pass whose use of a resource is no longer remembered has been handed over to the other queue.
- `Graph.Ordered`: what is recorded so far is ordered.
- `Graph.executeAsync_ordered`: a whole run is.
-/
import FrameGraph.Proofs.Accesses
import FrameGraph.Proofs.OneQueue

namespace FrameGraph

variable {g g' : Graph}

/-! ## Signals and waits -/

/-- a queue signals its own fence -/
def Block.ofSignal (q : Queue) (value : Nat) : Block := ⟨q, .sync, [.signal q value]⟩

/-- a queue waits for the fence of another -/
def Block.ofWait (source waiter : Queue) (value : Nat) (satisfied : Bool) : Block :=
  ⟨waiter, .sync, [.wait source value satisfied]⟩

theorem Block.ofWait_inj {q f : Queue} {value value' : Nat} {satisfied satisfied' : Bool}
    (h : Block.ofWait q q.other value satisfied = .ofWait f f.other value' satisfied') :
    q = f ∧ value = value' ∧ satisfied = satisfied' := by
  injection h with _ _ hc
  injection hc with hc
  injection hc with hq hv hs
  exact ⟨hq, hv, hs⟩

/-- one queue signals a value, and then the other waits for it -/
def Handover (source waiter : Queue) (blocks : List Block) : Prop :=
  ∃ value satisfied, [Block.ofSignal source value, Block.ofWait source waiter value satisfied].Sublist blocks

theorem Handover.append_right {source waiter : Queue} {blocks : List Block} (h : Handover source waiter blocks)
    (more : List Block) : Handover source waiter (blocks ++ more) := by
  obtain ⟨value, satisfied, h⟩ := h
  exact ⟨value, satisfied, h.trans (List.sublist_append_left blocks more)⟩

/-- a block of the run that belongs to no pass -/
def Block.IsSync (b : Block) : Prop :=
  (∃ q value, b = .ofSignal q value) ∨ ∃ q value satisfied, b = .ofWait q q.other value satisfied

/-- the values the run signals on a fence, in order -/
def signalsOn (q : Queue) (blocks : List Block) : List Nat :=
  (blocks.filter fun b => decide (b.source = .sync)).flatMap fun b => b.commands.filterMap fun
    | .signal f value => if f = q then some value else none
    | _ => none

/-- the source is a pass -/
def Source.isPass : Source → Bool
  | pass _ => true
  | sync => false
  | exports => false

/-- the number of passes recorded on a queue -/
def passCount (q : Queue) (blocks : List Block) : Nat :=
  blocks.countP fun b => decide (b.queue = q) && b.source.isPass

theorem passCount_append (q : Queue) (blocks more : List Block) :
    passCount q (blocks ++ more) = passCount q blocks + passCount q more :=
  List.countP_append

theorem signalsOn_append (q : Queue) (blocks more : List Block) :
    signalsOn q (blocks ++ more) = signalsOn q blocks ++ signalsOn q more := by
  rw [signalsOn, List.filter_append, List.flatMap_append]
  rfl

theorem signalsOn_ofSignal (q f : Queue) (value : Nat) :
    signalsOn f [.ofSignal q value] = if q = f then [value] else [] := by
  cases q <;> cases f <;> rfl

theorem signalsOn_ofWait (source waiter f : Queue) (value : Nat) (satisfied : Bool) :
    signalsOn f [.ofWait source waiter value satisfied] = [] := rfl

theorem signalsOn_pass (queue f : Queue) (i : Nat) (commands : List Command) :
    signalsOn f [⟨queue, .pass i, commands⟩] = [] := rfl

theorem mem_signalsOn {q : Queue} {value : Nat} {blocks : List Block} (h : .ofSignal q value ∈ blocks) :
    value ∈ signalsOn q blocks := by
  obtain ⟨earlier, since, rfl⟩ := List.append_of_mem h
  rw [signalsOn_append, ← List.singleton_append, signalsOn_append, signalsOn_ofSignal, if_pos rfl]
  exact List.mem_append_right _ (List.mem_append_left _ List.mem_cons_self)

theorem Block.IsSync.source {b : Block} (h : b.IsSync) : b.source = .sync := by
  rcases h with ⟨q, value, rfl⟩ | ⟨q, value, satisfied, rfl⟩ <;> rfl

/-- signals and waits do not count as passes -/
theorem passCount_append_sync {syncs : List Block} (h : ∀ b ∈ syncs, b.IsSync) (q : Queue) (blocks : List Block) :
    passCount q (blocks ++ syncs) = passCount q blocks := by
  rw [passCount_append, Nat.add_eq_left, passCount, List.countP_eq_zero]
  intro b hb
  rw [(h b hb).source, Source.isPass, Bool.and_false]
  exact Bool.false_ne_true

theorem isSync_ofSignal (q : Queue) (value : Nat) : ∀ b ∈ [Block.ofSignal q value], b.IsSync :=
  List.forall_mem_singleton.2 (.inl ⟨q, value, rfl⟩)

theorem isSync_ofWait (q : Queue) (value : Nat) (satisfied : Bool) :
    ∀ b ∈ [Block.ofWait q q.other value satisfied], b.IsSync :=
  List.forall_mem_singleton.2 (.inr ⟨q, value, satisfied, rfl⟩)

/-- signals and waits are recorded for no pass -/
theorem recorded_of_sync {events : Bool} {on : Pass → Queue} {syncs : List Block} (h : ∀ b ∈ syncs, b.IsSync) :
    Recorded events on [] syncs := by
  induction syncs with
  | nil => exact .nil
  | cons b syncs ih =>
    obtain ⟨hb, h⟩ := List.forall_mem_cons.1 h
    refine .sync hb.source (fun batch hbatch => ?_) (ih h)
    rcases hb with ⟨q, value, rfl⟩ | ⟨q, value, satisfied, rfl⟩ <;> cases List.mem_singleton.1 hbatch

theorem issued_le_advanceAll (syncs : Bool) (fences : Fences) (actions : List Action) (q : Queue) :
    (fences.get q).issued ≤ ((Action.advanceAll syncs fences actions).get q).issued := by
  induction actions generalizing fences with
  | nil => exact le_rfl
  | cons a actions ih =>
    refine le_trans ?_ (ih (a.advance syncs fences))
    cases a with
    | signal f value =>
      cases syncs with
      | false => exact le_rfl
      | true =>
        change _ ≤ ((fences.set f ((fences.get f).signal value)).get q).issued
        rw [PerQueue.get_set]
        split
        · rename_i hq
          rw [hq]
          exact Nat.le_max_left _ _
        · exact le_rfl
    | _ => exact le_rfl

/-! ## What a signal stands for -/

/-- a block of a longer list is one of the first blocks or one of the others -/
theorem eq_append_or_eq_append {blocks more before mid : List Block} {x : Block}
    (h : blocks ++ more = before ++ x :: mid) :
    (∃ mid', blocks = before ++ x :: mid' ∧ mid = mid' ++ more) ∨
      ∃ more', more = more' ++ x :: mid ∧ before = blocks ++ more' := by
  rcases List.append_eq_append_iff.1 h with ⟨c, rfl, hc⟩ | ⟨c, rfl, hc⟩
  · exact .inr ⟨c, hc, rfl⟩
  · cases c with
    | nil => exact .inr ⟨[], hc.symm, by rw [List.append_nil, List.append_nil]⟩
    | cons d c =>
      obtain ⟨rfl, rfl⟩ := List.cons.inj hc
      exact .inl ⟨c, rfl, rfl⟩

theorem eq_of_singleton_eq_append {more mid : List Block} {b x : Block} (h : [b] = more ++ x :: mid) :
    more = [] ∧ x = b := by
  cases more with
  | nil => exact ⟨rfl, (List.cons.inj h).1.symm⟩
  | cons c more => exact absurd (List.cons.inj h).2.symm (List.append_ne_nil_of_right_ne_nil more (List.cons_ne_nil x mid))

/-- a signal with a value, recorded after so many passes of its queue, and the blocks since -/
def SignalAfter (q : Queue) (position value : Nat) (blocks since : List Block) : Prop :=
  ∃ earlier, blocks = earlier ++ .ofSignal q value :: since ∧ position ≤ passCount q earlier

/-- the other queue has waited for the work of a queue up to a position -/
def HandedOver (q : Queue) (position : Nat) (blocks : List Block) : Prop :=
  ∃ value since satisfied, SignalAfter q position value blocks since ∧ .ofWait q q.other value satisfied ∈ since

/-- a signal recorded after more passes than a block stands behind it -/
theorem SignalAfter.exists_eq_append {q : Queue} {position value : Nat} {before mid since : List Block} {b : Block}
    (h : SignalAfter q position value (before ++ b :: mid) since) (hp : passCount q before < position) :
    ∃ mid', mid = mid' ++ .ofSignal q value :: since := by
  obtain ⟨earlier, e, hn⟩ := h
  have hcount := hp.trans_le hn
  rcases List.append_eq_append_iff.1 e with ⟨c, rfl, hc⟩ | ⟨c, rfl, hc⟩
  · cases c with
    | nil => exact absurd hcount (by rw [List.append_nil]; exact Nat.lt_irrefl _)
    | cons d c => exact ⟨c, (List.cons.inj hc).2⟩
  · rw [passCount_append] at hcount
    exact absurd hcount (Nat.not_lt.2 (Nat.le_add_right _ _))

/-- what has been waited for up to the position of a block or further is handed over behind the block -/
theorem HandedOver.handover {q : Queue} {position : Nat} {before mid : List Block} {b : Block}
    (h : HandedOver q position (before ++ b :: mid)) (hp : passCount q before < position) :
    Handover q q.other mid := by
  obtain ⟨value, since, satisfied, hs, hw⟩ := h
  obtain ⟨mid', rfl⟩ := hs.exists_eq_append hp
  exact ⟨value, satisfied, ((List.singleton_sublist.2 hw).cons_cons _).trans (List.sublist_append_right _ _)⟩

theorem HandedOver.mono {q : Queue} {position position' : Nat} {blocks : List Block}
    (h : HandedOver q position blocks) (hp : position' ≤ position) : HandedOver q position' blocks := by
  obtain ⟨value, since, satisfied, ⟨earlier, e, hn⟩, hw⟩ := h
  exact ⟨value, since, satisfied, ⟨earlier, e, hp.trans hn⟩, hw⟩

theorem SignalAfter.append {q : Queue} {position value : Nat} {blocks since : List Block}
    (h : SignalAfter q position value blocks since) (more : List Block) :
    SignalAfter q position value (blocks ++ more) (since ++ more) := by
  obtain ⟨earlier, rfl, hn⟩ := h
  exact ⟨earlier, List.append_assoc _ _ _, hn⟩

namespace TwoQueueRun

variable {run run' : TwoQueueRun}

/-- the counters of a run agree with what it has recorded -/
structure Tallied (run : TwoQueueRun) : Prop where
  /-- the passes of each queue are counted -/
  recorded : ∀ q, (run.progress.get q).recorded = passCount q run.log.blocks
  /-- signals have growing values -/
  growing : ∀ q, (signalsOn q run.log.blocks).Pairwise (· < ·)
  /-- the fences are past all of them -/
  issued : ∀ q, ∀ value ∈ signalsOn q run.log.blocks, value ≤ (run.log.fences.get q).issued
  /-- nothing has been waited for that was not signaled -/
  waited : ∀ q, (run.progress.get q.other).waited ≤ (run.log.fences.get q).issued
  /-- the last signal stands where it was made; at most its value has been waited for, and if so after the signal -/
  signaled : ∀ q position value, (run.progress.get q).signaled = some (position, value) →
    (run.progress.get q.other).waited ≤ value ∧ ∃ since, SignalAfter q position value run.log.blocks since ∧
      ((run.progress.get q.other).waited = value → ∃ satisfied, .ofWait q q.other value satisfied ∈ since)
  /-- a wait comes after the signal it is for -/
  awaited : ∀ before q value satisfied after, run.log.blocks = before ++ .ofWait q q.other value satisfied :: after →
    .ofSignal q value ∈ before

theorem tallied_start (fences : Fences) : Tallied { log := { fences } } where
  recorded := fun q => by cases q <;> rfl
  growing := fun _ => List.Pairwise.nil
  issued := fun _ _ h => nomatch h
  waited := fun q => by cases q <;> exact Nat.zero_le _
  signaled := fun q position value h => by cases q <;> cases h
  awaited := fun before _ _ _ after h => absurd h.symm (List.append_ne_nil_of_right_ne_nil before (List.cons_ne_nil _ after))

/-- recording something that is no wait leaves every wait after its signal -/
theorem Tallied.awaited_concat (h : run.Tallied) {b : Block} (hb : ∀ q value satisfied, b ≠ .ofWait q q.other value satisfied)
    (before : List Block) (q : Queue) (value : Nat) (satisfied : Bool) (after : List Block)
    (e : run.log.blocks ++ [b] = before ++ .ofWait q q.other value satisfied :: after) : .ofSignal q value ∈ before := by
  rcases eq_append_or_eq_append e with ⟨after', e', -⟩ | ⟨more, hmore, -⟩
  · exact h.awaited before q value satisfied after' e'
  · exact absurd (eq_of_singleton_eq_append hmore).2.symm (hb q value satisfied)

variable {q : Queue} {value : Nat}

/-- the last signal, and the wait for it if there was one, stay where they are when more is recorded -/
theorem Tallied.signaled_append (h : run.Tallied) {position : Nat}
    (hs : (run.progress.get q).signaled = some (position, value)) (more : List Block) :
    (run.progress.get q.other).waited ≤ value ∧ ∃ since, SignalAfter q position value (run.log.blocks ++ more) since ∧
      ((run.progress.get q.other).waited = value → ∃ satisfied, .ofWait q q.other value satisfied ∈ since) := by
  obtain ⟨hle, since, hafter, hsince⟩ := h.signaled q position value hs
  refine ⟨hle, since ++ more, hafter.append more, fun e => ?_⟩
  obtain ⟨satisfied, hm⟩ := hsince e
  exact ⟨satisfied, List.mem_append_left more hm⟩

theorem Tallied.pass (h : run.Tallied) (q : Queue) (i : Nat) (actions : List Action) (a : Accesses) :
    Tallied {
      log := run.log.record (.both true) q (.pass i) actions
      progress := run.progress.set q { run.progress.get q with recorded := (run.progress.get q).recorded + 1 }
      accesses := a } := by
  have hwaited := PerQueue.apply_get_set Progress.waited (p := run.progress) (q := q)
    (a := { run.progress.get q with recorded := (run.progress.get q).recorded + 1 }) rfl
  have hsignaled := PerQueue.apply_get_set Progress.signaled (p := run.progress) (q := q)
    (a := { run.progress.get q with recorded := (run.progress.get q).recorded + 1 }) rfl
  refine ⟨fun r => ?_, fun r => ?_, fun r value hv => ?_, fun r => ?_, fun r position value hs => ?_,
    h.awaited_concat fun _ _ _ e => by cases e⟩
  · simp only [Log.record, passCount_append, ← h.recorded r, PerQueue.get_set]
    split
    · rename_i hr
      simp [passCount, hr, Source.isPass]
    · rename_i hr
      simp [passCount, Ne.symm hr]
  · simp only [Log.record, signalsOn_append, signalsOn_pass, List.append_nil]
    exact h.growing r
  · simp only [Log.record, signalsOn_append, signalsOn_pass, List.append_nil] at hv ⊢
    calc value ≤ (run.log.fences.get r).issued := h.issued r value hv
      _ ≤ _ := issued_le_advanceAll _ _ _ _
  · simp only [hwaited]
    calc (run.progress.get r.other).waited ≤ (run.log.fences.get r).issued := h.waited r
      _ ≤ _ := issued_le_advanceAll _ _ _ _
  · simp only [hsignaled] at hs
    simp only [hwaited]
    exact h.signaled_append hs _

/-- a fresh signal stands for all the work of its queue so far -/
theorem Tallied.signal (h : run.Tallied) {fences : Fences} (hv : (run.log.fences.get q).issued < value)
    (hq : (fences.get q).issued = value) (ho : fences.get q.other = run.log.fences.get q.other) :
    Tallied { run with
      log := ⟨fences, run.log.blocks ++ [.ofSignal q value]⟩
      progress := run.progress.set q
        { run.progress.get q with signaled := some ((run.progress.get q).recorded, value) } } := by
  have hrecorded := PerQueue.apply_get_set Progress.recorded (p := run.progress) (q := q)
    (a := { run.progress.get q with signaled := some ((run.progress.get q).recorded, value) }) rfl
  have hwaited := PerQueue.apply_get_set Progress.waited (p := run.progress) (q := q)
    (a := { run.progress.get q with signaled := some ((run.progress.get q).recorded, value) }) rfl
  have hissued : ∀ r, (run.log.fences.get r).issued ≤ (fences.get r).issued := by
    intro r
    rcases q.eq_or_eq_other r with rfl | rfl
    · exact hq ▸ hv.le
    · rw [ho]
  refine ⟨fun r => ?_, fun r => ?_, fun r v hm => ?_, fun r => ?_, fun r position v hs => ?_,
    h.awaited_concat fun _ _ _ e => by cases e⟩
  · rw [hrecorded, h.recorded r, passCount_append_sync (isSync_ofSignal q value)]
  · rw [signalsOn_append, signalsOn_ofSignal, List.pairwise_append]
    refine ⟨h.growing r, by split <;> simp, fun v hm w hw => ?_⟩
    split at hw
    · rename_i hr
      rw [List.mem_singleton.1 hw]
      calc v ≤ (run.log.fences.get r).issued := h.issued r v hm
        _ < value := hr ▸ hv
    · cases hw
  · rw [signalsOn_append, signalsOn_ofSignal] at hm
    rcases List.mem_append.1 hm with hm | hm
    · calc v ≤ (run.log.fences.get r).issued := h.issued r v hm
        _ ≤ (fences.get r).issued := hissued r
    · split at hm
      · rename_i hr
        rw [List.mem_singleton.1 hm, ← hr]
        exact hq.ge
      · cases hm
  · rw [hwaited]
    calc (run.progress.get r.other).waited ≤ (run.log.fences.get r).issued := h.waited r
      _ ≤ (fences.get r).issued := hissued r
  · rw [hwaited]
    rcases q.eq_or_eq_other r with rfl | rfl
    · rw [PerQueue.get_set_self] at hs
      cases hs
      have hlt := (h.waited r).trans_lt hv
      exact ⟨hlt.le, [], ⟨run.log.blocks, rfl, (h.recorded r).le⟩, fun e => absurd e hlt.ne⟩
    · rw [PerQueue.get_set_other] at hs
      exact h.signaled_append hs _

/-- a queue waits for the last signal of the other one -/
theorem Tallied.wait (h : run.Tallied) {position : Nat} (satisfied : Bool)
    (hs : (run.progress.get q).signaled = some (position, value)) :
    Tallied { run with
      log := ⟨run.log.fences, run.log.blocks ++ [.ofWait q q.other value satisfied]⟩
      progress := run.progress.set q.other { run.progress.get q.other with waited := value } } := by
  have hrecorded := PerQueue.apply_get_set Progress.recorded (p := run.progress) (q := q.other)
    (a := { run.progress.get q.other with waited := value }) rfl
  have hsignaled := PerQueue.apply_get_set Progress.signaled (p := run.progress) (q := q.other)
    (a := { run.progress.get q.other with waited := value }) rfl
  obtain ⟨-, since, hafter, -⟩ := h.signaled q position value hs
  refine ⟨fun r => ?_, fun r => ?_, fun r v hm => ?_, fun r => ?_, fun r position v hs' => ?_,
    fun before r v satisfied' after e => ?_⟩
  · rw [hrecorded, h.recorded r, passCount_append_sync (isSync_ofWait q value satisfied)]
  · rw [signalsOn_append, signalsOn_ofWait, List.append_nil]
    exact h.growing r
  · rw [signalsOn_append, signalsOn_ofWait, List.append_nil] at hm
    exact h.issued r v hm
  · rcases q.eq_or_eq_other r with rfl | rfl
    · rw [PerQueue.get_set_self]
      obtain ⟨earlier, e, -⟩ := hafter
      exact h.issued r value (mem_signalsOn (e ▸ List.mem_append_right _ List.mem_cons_self))
    · rw [PerQueue.get_set_other]
      exact h.waited q.other
  · rw [hsignaled] at hs'
    rcases q.eq_or_eq_other r with rfl | rfl
    · rw [hs] at hs'
      cases hs'
      rw [PerQueue.get_set_self]
      exact ⟨le_rfl, _, hafter.append _, fun _ => ⟨satisfied, List.mem_append_right _ List.mem_cons_self⟩⟩
    · rw [PerQueue.get_set_other]
      exact h.signaled_append hs' _
  · rcases eq_append_or_eq_append e with ⟨after', e', -⟩ | ⟨more, hmore, rfl⟩
    · exact h.awaited before r v satisfied' after' e'
    · obtain ⟨rfl, hw⟩ := eq_of_singleton_eq_append hmore
      obtain ⟨hr, hv, -⟩ := Block.ofWait_inj hw
      obtain ⟨earlier, e', -⟩ := hafter
      rw [List.append_nil, hr, hv, e']
      exact List.mem_append_right _ List.mem_cons_self

/-! ## Waiting -/

/-- what waiting may do to a run: some signals and waits are recorded, and the accesses stay as they are -/
structure Extends (run run' : TwoQueueRun) : Prop where
  blocks : ∃ syncs, run'.log.blocks = run.log.blocks ++ syncs ∧ ∀ b ∈ syncs, b.IsSync
  accesses : run'.accesses = run.accesses

theorem Extends.refl (run : TwoQueueRun) : Extends run run :=
  ⟨⟨[], (List.append_nil _).symm, fun _ h => nomatch h⟩, rfl⟩

theorem Extends.trans {run'' : TwoQueueRun} (h : Extends run run') (h' : Extends run' run'') : Extends run run'' := by
  obtain ⟨⟨syncs, e, hs⟩, ha⟩ := h
  obtain ⟨⟨syncs', e', hs'⟩, ha'⟩ := h'
  refine ⟨⟨syncs ++ syncs', by rw [e', e, List.append_assoc], fun b hb => ?_⟩, ha'.trans ha⟩
  exact (List.mem_append.1 hb).elim (hs b) (hs' b)

/-- a signal covers the position asked for, whether it is a new one or an old one serves again -/
theorem signal_spec {position : Nat} (ht : run.Tallied) (hp : position ≤ passCount q run.log.blocks)
    (h : run.signal (.both true) q position = .ok (value, run')) :
    run'.Tallied ∧ run.Extends run' ∧ ∃ n, (run'.progress.get q).signaled = some (n, value) ∧ position ≤ n := by
  cases hf : (run.progress.get q).signaled.filter (position ≤ ·.1) with
  | some last =>
    simp only [signal, hf] at h
    cases h
    obtain ⟨hs, hn⟩ := Option.filter_eq_some_iff.1 hf
    exact ⟨ht, .refl run, last.1, hs, of_decide_eq_true hn⟩
  | none =>
    simp only [signal, hf] at h
    obtain ⟨⟨value', fence⟩, hnext, h⟩ := bind_eq_ok.1 h
    obtain ⟨rfl, rfl⟩ := Fence.next_fresh hnext
    simp only [Log.record, PerQueue.get_both] at h
    cases h
    refine ⟨ht.signal (Nat.lt_succ_self _) ?_ ?_, ⟨⟨_, rfl, isSync_ofSignal q _⟩, rfl⟩, _, ?_, hp.trans_eq (ht.recorded q).symm⟩
    · change Fence.issued (((PerQueue.set _ _ _).set q _).get q) = _
      rw [PerQueue.get_set_self, PerQueue.get_set_self]
      exact Nat.max_self _
    · change ((PerQueue.set _ _ _).set q _).get q.other = _
      rw [PerQueue.get_set_other, PerQueue.get_set_other]
    · change Progress.signaled ((PerQueue.set _ _ _).get q) = _
      rw [PerQueue.get_set_self]

/-- after waiting, the work waited for has been handed over -/
theorem waitFor_spec {waiter : Queue} {position : Nat} (ht : run.Tallied)
    (hp : position ≤ passCount waiter.other run.log.blocks) (h : run.waitFor (.both true) waiter position = .ok run') :
    run'.Tallied ∧ run.Extends run' ∧ HandedOver waiter.other position run'.log.blocks := by
  obtain ⟨q, rfl⟩ : ∃ q : Queue, waiter = q.other := ⟨waiter.other, waiter.other_other.symm⟩
  rw [waitFor, Queue.other_other] at h
  rw [Queue.other_other] at hp ⊢
  obtain ⟨⟨value, run₁⟩, hsignal, h⟩ := bind_eq_ok.1 h
  obtain ⟨ht₁, hext, n, hs, hn⟩ := signal_spec ht hp hsignal
  obtain ⟨hle, since, hafter, hsince⟩ := ht₁.signaled q n value hs
  have hmono : ∀ {blocks since}, SignalAfter q n value blocks since → SignalAfter q position value blocks since :=
    fun ⟨earlier, e, hc⟩ => ⟨earlier, e, hn.trans hc⟩
  simp only at h
  split at h
  · -- the wait is left out: the value has been waited for, and since the signal
    rename_i hv
    cases h
    obtain ⟨satisfied, hm⟩ := hsince (le_antisymm hle hv)
    exact ⟨ht₁, hext, value, since, satisfied, hmono hafter, hm⟩
  · simp only [Log.record, PerQueue.get_both] at h
    cases h
    refine ⟨ht₁.wait _ hs, hext.trans ⟨⟨_, rfl, isSync_ofWait q value _⟩, rfl⟩, value, _, _, (hmono hafter).append _,
      List.mem_append_right _ List.mem_cons_self⟩

theorem waitIfNeeded_spec {waiter : Queue} {dependency : Option Nat} (ht : run.Tallied)
    (hp : ∀ n, dependency = some n → n ≤ passCount waiter.other run.log.blocks)
    (h : run.waitIfNeeded (.both true) waiter dependency = .ok run') :
    run'.Tallied ∧ run.Extends run' ∧ ∀ n, dependency = some n → HandedOver waiter.other n run'.log.blocks := by
  cases dependency with
  | none =>
    cases h
    exact ⟨ht, .refl run, fun n hn => nomatch hn⟩
  | some position =>
    obtain ⟨ht', hext, hover⟩ := waitFor_spec ht (hp position rfl) h
    exact ⟨ht', hext, fun n hn => Option.some.inj hn ▸ hover⟩

end TwoQueueRun

/-! ## Hazards -/

/-- the block is of a pass -/
def Block.IsOf (passes : List Pass) (b : Block) (p : Pass) : Prop := ∃ i, b.source = .pass i ∧ passes[i]? = some p

/-- what the second block does needs what the first one does, on another queue: both are of passes that conflict, or the
second is the exports and the first of a pass that uses an exported resource -/
def Graph.Hazard (g : Graph) (x y : Block) : Prop :=
  x.queue ≠ y.queue ∧ ∃ p, x.IsOf g.passes p ∧
    ((∃ p', y.IsOf g.passes p' ∧ p.Conflicts p') ∨ (y.source = .exports ∧ ∃ key ∈ g.registry.exportedKeys, p.Uses key))

/-- between two blocks with a hazard the queue of the first signals and that of the second waits for it -/
def Graph.Ordered (g : Graph) (blocks : List Block) : Prop :=
  ∀ before x mid y after, blocks = before ++ x :: mid ++ y :: after → g.Hazard x y → Handover x.queue y.queue mid

theorem Block.IsOf.not_isSync {passes : List Pass} {b : Block} {p : Pass} (h : b.IsOf passes p) : ¬ b.IsSync := by
  obtain ⟨i, hi, -⟩ := h
  intro hs
  rw [hs.source] at hi
  cases hi

theorem Graph.Hazard.not_isSync {x y : Block} (h : g.Hazard x y) : ¬ y.IsSync := by
  obtain ⟨-, p, -, ⟨p', hy, -⟩ | ⟨hy, -⟩⟩ := h
  · exact hy.not_isSync
  · intro hs
    rw [hs.source] at hy
    cases hy

theorem Graph.Ordered.concat {blocks : List Block} {b : Block} (h : g.Ordered blocks)
    (hb : ∀ before x mid, blocks = before ++ x :: mid → g.Hazard x b → Handover x.queue b.queue mid) :
    g.Ordered (blocks ++ [b]) := by
  intro before x mid y after e hxy
  rcases eq_append_or_eq_append e with ⟨after', e', -⟩ | ⟨more, hmore, e'⟩
  · exact h before x mid y after' e' hxy
  · obtain ⟨rfl, rfl⟩ := eq_of_singleton_eq_append hmore
    rw [List.append_nil] at e'
    exact hb before x mid e'.symm hxy

theorem Graph.Ordered.append_sync {blocks syncs : List Block} (h : g.Ordered blocks) (hs : ∀ b ∈ syncs, b.IsSync) :
    g.Ordered (blocks ++ syncs) := by
  induction syncs using List.reverseRecOn with
  | nil => rwa [List.append_nil]
  | append_singleton syncs b ih =>
    rw [← List.append_assoc]
    refine (ih fun c hc => hs c (List.mem_append_left _ hc)).concat fun _ x _ _ hxb => ?_
    exact absurd (hs b (List.mem_append_right _ List.mem_cons_self)) hxb.not_isSync

/-! ## What the accesses stand for -/

/-- the other queue has waited for a pass that uses a resource, or its use is still remembered -/
def Accesses.Accounts (a : Accesses) (key : Key) (p : Pass) (before : List Block) (x : Block) (mid : List Block) : Prop :=
  Handover x.queue x.queue.other mid ∨
    (∃ n, (a.of key).change = some (x.queue, n) ∧ passCount x.queue before < n) ∨
    (¬ p.Alters key ∧ ∃ n, (a.of key).read.get x.queue = some n ∧ passCount x.queue before < n)

/-- what is remembered lies among the passes recorded so far, and accounts for each of them -/
structure Accesses.Remember (passes : List Pass) (blocks : List Block) (a : Accesses) : Prop where
  change_le : ∀ key q n, (a.of key).change = some (q, n) → n ≤ passCount q blocks
  read_le : ∀ key q n, (a.of key).read.get q = some n → n ≤ passCount q blocks
  accounts : ∀ before x mid p key, blocks = before ++ x :: mid → x.IsOf passes p → p.Uses key →
    a.Accounts key p before x mid

namespace Accesses

variable {passes : List Pass} {blocks : List Block} {a : Accesses}

theorem Accounts.append {p : Pass} {key : Key} {before mid : List Block} {x : Block} (h : a.Accounts key p before x mid)
    (more : List Block) : a.Accounts key p before x (mid ++ more) :=
  Or.imp_left (fun hover => hover.append_right more) h

theorem remember_start (passes : List Pass) : Remember passes [] [] where
  change_le := fun _ _ _ h => nomatch h
  read_le := fun key q n h => by cases q <;> cases h
  accounts := fun before x mid _ _ h => absurd h.symm (List.append_ne_nil_of_right_ne_nil before (List.cons_ne_nil x mid))

theorem Remember.append_sync {syncs : List Block} (h : a.Remember passes blocks) (hs : ∀ b ∈ syncs, b.IsSync) :
    a.Remember passes (blocks ++ syncs) where
  change_le := fun key q n hn => by
    calc n ≤ passCount q blocks := h.change_le key q n hn
      _ = passCount q (blocks ++ syncs) := (passCount_append_sync hs q blocks).symm
  read_le := fun key q n hn => by
    calc n ≤ passCount q blocks := h.read_le key q n hn
      _ = passCount q (blocks ++ syncs) := (passCount_append_sync hs q blocks).symm
  accounts := fun before x mid p key e hx hu => by
    rcases eq_append_or_eq_append e with ⟨mid', e', rfl⟩ | ⟨more, e', -⟩
    · exact (h.accounts before x mid' p key e' hx hu).append syncs
    · exact absurd (hs x (e' ▸ List.mem_append_right more List.mem_cons_self)) hx.not_isSync

/-- **Who waits for what is remembered of a resource waits for every pass it conflicts with on it.** -/
theorem Remember.handover {q : Queue} {key : Key} {before mid : List Block} {x : Block} {p : Pass}
    (h : a.Remember passes blocks) (alters : Prop)
    (hw : ∀ n, ((a.of key).change = some (q, n) ∨ alters ∧ (a.of key).read.get q = some n) → HandedOver q n blocks)
    (e : blocks = before ++ x :: mid) (hx : x.IsOf passes p) (hq : x.queue = q) (hu : p.Uses key)
    (hc : p.Alters key ∨ alters) : Handover q q.other mid := by
  subst hq
  have hover : ∀ n, HandedOver x.queue n blocks → passCount x.queue before < n →
      Handover x.queue x.queue.other mid := fun n hn hlt => (e ▸ hn).handover hlt
  rcases h.accounts before x mid p key e hx hu with hdone | ⟨n, hn, hlt⟩ | ⟨hna, n, hn, hlt⟩
  · exact hdone
  · exact hover n (hw n (.inl hn)) hlt
  · exact hover n (hw n (.inr ⟨hc.resolve_left hna, hn⟩)) hlt

/-- a pass waits for what is remembered of the resources it uses -/
theorem handedOver_of_dependency {p : Pass} {key : Key} (hu : p.Uses key)
    (hw : ∀ n, p.dependency a = some n → HandedOver p.kind.queue.other n blocks) (n : Nat)
    (hn : (a.of key).change = some (p.kind.queue.other, n) ∨
      p.Alters key ∧ (a.of key).read.get p.kind.queue.other = some n) :
    HandedOver p.kind.queue.other n blocks := by
  obtain ⟨m, hm, hle⟩ := p.exists_le_dependency hu hn
  exact (hw m hm).mono hle

/-- a pass that has waited may forget what it replaces -/
theorem Accounts.note {p px : Pass} {key : Key} {before mid : List Block} {x : Block} {position : Nat}
    (h : a.Accounts key px before x mid) (hlt : x.queue = p.kind.queue → passCount x.queue before < position)
    (hw : x.queue = p.kind.queue.other → p.Uses key → px.Alters key ∨ p.Alters key →
      Handover x.queue x.queue.other mid) :
    (p.noteAccesses position a).Accounts key px before x mid := by
  unfold Accounts at h ⊢
  by_cases hu : p.Uses key
  · by_cases hq : x.queue = p.kind.queue
    · -- on the queue of the pass its own position is later
      by_cases ha : p.Alters key
      · exact .inr (.inl ⟨position, hq ▸ (Pass.note_altered hu ha).1, hlt hq⟩)
      · rcases h with hover | ⟨n, hn, hlt'⟩ | ⟨hna, -⟩
        · exact .inl hover
        · exact .inr (.inl ⟨n, (Pass.note_used hu ha).1.trans hn, hlt'⟩)
        · exact .inr (.inr ⟨hna, position, hq ▸ (Pass.note_used hu ha).2.2, hlt hq⟩)
    · have hq := Queue.eq_other_of_ne hq
      by_cases hc : px.Alters key ∨ p.Alters key
      · exact .inl (hw hq hu hc)
      · -- two reads on different queues are both remembered
        obtain ⟨h1, h2, -⟩ := @Pass.note_used p key a position hu (not_or.1 hc).2
        rw [hq] at h ⊢
        rwa [h1, h2]
  · rwa [Pass.note_unused hu]

/-- what a pass waits for lies among the passes recorded so far -/
theorem Remember.le_of_dependency {p : Pass} (h : a.Remember passes blocks) (n : Nat) (hn : p.dependency a = some n) :
    n ≤ passCount p.kind.queue.other blocks := by
  obtain ⟨key, -, hk | ⟨-, hk⟩⟩ := p.of_dependency hn
  · exact h.change_le key _ n hk
  · exact h.read_le key _ n hk

theorem Remember.le_of_exportDependency {r : Registry} (h : a.Remember passes blocks) (n : Nat)
    (hn : r.exportDependency a = some n) : n ≤ passCount .compute blocks := by
  obtain ⟨key, -, hk⟩ := List.mem_map.1 (mem_of_latest hn)
  rcases Recent.of_dependency hk with hk | ⟨-, hk⟩
  · exact h.change_le key _ n hk
  · exact h.read_le key _ n hk

/-- **What is remembered after a pass that has waited accounts for everything again.** -/
theorem Remember.pass {p : Pass} {i : Nat} (h : a.Remember passes blocks) (hi : passes[i]? = some p)
    (hw : ∀ n, p.dependency a = some n → HandedOver p.kind.queue.other n blocks) (commands : List Command) :
    (p.noteAccesses (passCount p.kind.queue blocks + 1) a).Remember passes
      (blocks ++ [⟨p.kind.queue, .pass i, commands⟩]) := by
  have hcount : passCount p.kind.queue (blocks ++ [⟨p.kind.queue, .pass i, commands⟩]) =
      passCount p.kind.queue blocks + 1 := by
    rw [passCount_append]
    simp [passCount, Source.isPass]
  have hle : ∀ q, passCount q blocks ≤ passCount q (blocks ++ [⟨p.kind.queue, .pass i, commands⟩]) := by
    intro q
    rw [passCount_append]
    exact Nat.le_add_right _ _
  refine ⟨fun key q n hn => ?_, fun key q n hn => ?_, fun before x mid px key e hx hu => ?_⟩
  · rcases Pass.change_noteAccesses hn with ⟨rfl, rfl, -⟩ | hn
    · exact hcount.ge
    · calc n ≤ passCount q blocks := h.change_le key q n hn
        _ ≤ _ := hle q
  · rcases Pass.read_noteAccesses hn with ⟨rfl, rfl, -⟩ | hn
    · exact hcount.ge
    · calc n ≤ passCount q blocks := h.read_le key q n hn
        _ ≤ _ := hle q
  · rcases eq_append_or_eq_append e with ⟨mid', e', rfl⟩ | ⟨more, hmore, e'⟩
    · refine (Accounts.note (h.accounts before x mid' px key e' hx hu) (fun hq => ?_) fun hq hp hc => ?_).append _
      · rw [← hq, e', passCount_append]
        exact Nat.lt_succ_of_le (Nat.le_add_right _ _)
      · rw [hq]
        exact h.handover (p.Alters key) (handedOver_of_dependency hp hw) e' hx hq hu hc
    · obtain ⟨rfl, rfl⟩ := eq_of_singleton_eq_append hmore
      rw [List.append_nil] at e'
      obtain ⟨j, hj, hpx⟩ := hx
      obtain rfl : p = px := by
        cases hj
        exact Option.some.inj (hi.symm.trans hpx)
      rw [e']
      by_cases ha : p.Alters key
      · exact .inr (.inl ⟨_, (Pass.note_altered hu ha).1, Nat.lt_succ_self _⟩)
      · exact .inr (.inr ⟨ha, _, (Pass.note_used hu ha).2.2, Nat.lt_succ_self _⟩)

end Accesses

/-! ## The run -/

namespace TwoQueueRun

/-- the run has recorded some passes, in an order that is safe, and can go on -/
structure Inv (g : Graph) (walked : List (Nat × Pass)) (run : TwoQueueRun) : Prop where
  tallied : run.Tallied
  remember : run.accesses.Remember g.passes run.log.blocks
  ordered : g.Ordered run.log.blocks
  recorded : Recorded g.settings.events (fun p => p.kind.queue) walked run.log.blocks
  syncs : ∀ b ∈ run.log.blocks, b.source = .sync → b.IsSync

variable {walked : List (Nat × Pass)} {run run' : TwoQueueRun}

theorem inv_start (g : Graph) (fences : Fences) : Inv g [] { log := { fences } } where
  tallied := tallied_start fences
  remember := Accesses.remember_start g.passes
  ordered := fun _ _ _ y after h => absurd h.symm (List.append_ne_nil_of_right_ne_nil _ (List.cons_ne_nil y after))
  recorded := .nil
  syncs := fun _ h => nomatch h

theorem Inv.extends (h : run.Inv g walked) (ht : run'.Tallied) (he : run.Extends run') : run'.Inv g walked := by
  obtain ⟨⟨syncs, e, hs⟩, ha⟩ := he
  refine ⟨ht, ?_, ?_, ?_, fun b hb hsource => ?_⟩
  · rw [ha, e]
    exact h.remember.append_sync hs
  · rw [e]
    exact h.ordered.append_sync hs
  · rw [e, ← List.append_nil walked]
    exact h.recorded.append (recorded_of_sync hs)
  · rw [e] at hb
    exact (List.mem_append.1 hb).elim (fun hb => h.syncs b hb hsource) (hs b)

/-- **One pass keeps the invariant.** -/
theorem Inv.step {i : Nat} {p : Pass} (h : run.Inv g walked) (hp : g.passes[i]? = some p)
    (hs : run.step (.both true) g.settings.events i p = .ok run') : run'.Inv g (walked ++ [(i, p)]) := by
  obtain ⟨run₁, hwait, hs⟩ := bind_eq_ok.1 hs
  cases hs
  obtain ⟨ht, he, hover⟩ := waitIfNeeded_spec h.tallied h.remember.le_of_dependency hwait
  have h₁ := h.extends ht he
  rw [← he.accesses] at hover
  refine ⟨ht.pass _ _ _ _, ?_, h₁.ordered.concat fun _ _ _ e hxy => ?_, ?_, fun b hb hsource => ?_⟩
  · rw [ht.recorded]
    exact h₁.remember.pass hp hover _
  · obtain ⟨hq, px, hx, ⟨p', ⟨j, hj, hp'⟩, _, hux, huy, hc⟩ | ⟨hy, -⟩⟩ := hxy
    · cases hj
      obtain rfl : p = p' := Option.some.inj (hp.symm.trans hp')
      have hq := Queue.eq_other_of_ne hq
      have hh := h₁.remember.handover _ (Accesses.handedOver_of_dependency huy hover) e hx hq hux hc
      rw [hq]
      rwa [Queue.other_other] at hh
    · cases hy
  · exact h₁.recorded.append (.pass ⟨_, _, rfl⟩ .nil)
  · rcases List.mem_append.1 hb with hb | hb
    · exact h₁.syncs b hb hsource
    · rw [List.mem_singleton.1 hb] at hsource
      cases hsource

/-- what each pass keeps a whole run keeps -/
theorem foldlM_induction {syncs : PerQueue Bool} {events : Bool} {P : List (Nat × Pass) → TwoQueueRun → Prop}
    {walk : List (Nat × Pass)} (h : P walked run)
    (hstep : ∀ x ∈ walk, ∀ walked run run', P walked run → run.step syncs events x.1 x.2 = .ok run' → P (walked ++ [x]) run')
    (hrun : walk.foldlM (fun (run : TwoQueueRun) (i, p) => run.step syncs events i p) run = .ok run') :
    P (walked ++ walk) run' := by
  induction walk generalizing run walked with
  | nil =>
    cases hrun
    rwa [List.append_nil]
  | cons x walk ih =>
    obtain ⟨hx, hstep⟩ := List.forall_mem_cons.1 hstep
    rw [List.foldlM_cons] at hrun
    obtain ⟨run₁, hfirst, hrun⟩ := bind_eq_ok.1 hrun
    have := ih (hx walked run run₁ h hfirst) hstep hrun
    rwa [List.append_assoc] at this

/-- the exports wait for the last change and the last read on the compute queue of each exported resource -/
theorem exists_le_exportDependency {r : Registry} {a : Accesses} {key : Key} (hk : key ∈ r.exportedKeys) {n : Nat}
    (h : (a.of key).change = some (.compute, n) ∨ (a.of key).read.get .compute = some n) :
    ∃ m, r.exportDependency a = some m ∧ n ≤ m := by
  obtain ⟨m, hm, hn⟩ : ∃ m, (a.of key).dependency .compute true = some m ∧ n ≤ m :=
    h.elim (Recent.exists_le_dependency_of_change true) Recent.exists_le_dependency_of_read
  have hmem : some m ∈ r.exportedKeys.map fun key => (a.of key).dependency .compute true :=
    List.mem_map.2 ⟨key, hk, hm⟩
  obtain ⟨l, hl, hml⟩ := exists_le_latest hmem
  exact ⟨l, hl, hn.trans hml⟩

/-- exports that have been waited for are in order too -/
theorem Inv.exports (h : run.Inv g walked)
    (hw : ∀ n, g.registry.exportDependency run.accesses = some n → HandedOver .compute n run.log.blocks) (batch : Batch) :
    g.Ordered (run.log.blocks ++ exportBlocks batch) := by
  unfold exportBlocks
  split
  · refine h.ordered.concat fun _ x _ e hxy => ?_
    obtain ⟨hq, px, hx, ⟨p', ⟨j, hj, -⟩, -⟩ | ⟨-, key, hk, hu⟩⟩ := hxy
    · cases hj
    · have hq : x.queue = .compute := Queue.eq_other_of_ne hq
      have hh := h.remember.handover True (fun n hn => ?_) e hx hq hu (.inr trivial)
      · rw [hq]
        exact hh
      · obtain ⟨m, hm, hle⟩ := exists_le_exportDependency hk (hn.imp_right And.right)
        exact (hw m hm).mono hle
  · rw [List.append_nil]
    exact h.ordered

end TwoQueueRun

theorem Log.mem_stream {log : Log} {q : Queue} {c : Command} :
    c ∈ log.stream q ↔ ∃ b ∈ log.blocks, b.queue = q ∧ c ∈ b.commands := by
  simp only [stream, List.mem_flatMap, List.mem_filter, decide_eq_true_eq, and_assoc]

namespace Graph

/-- a run walks its passes, lets the graphics queue wait if it has to, and records the exports -/
theorem executeAsync_stages {syncs : PerQueue Bool} {fences : Fences} {log : Log}
    (h : g.executeAsync syncs fences = .ok (g', log)) :
    ∃ run run' : TwoQueueRun,
      g.walk.foldlM (fun (run : TwoQueueRun) (i, p) => run.step syncs g.settings.events i p) { log := { fences } } =
        .ok run ∧
      run.waitIfNeeded syncs .graphics (g.registry.exportDependency run.accesses) = .ok run' ∧
      run'.log.recordExports syncs g = .ok log ∧ g' = g.afterRun := by
  obtain ⟨run, hwalk, h⟩ := bind_eq_ok.1 h
  obtain ⟨run', hwait, h⟩ := bind_eq_ok.1 h
  obtain ⟨log', hexports, h⟩ := bind_eq_ok.1 h
  cases h
  exact ⟨run, run', hwalk, hwait, hexports, rfl⟩

/-- a run records its passes and then its exports, and everything recorded is in order -/
theorem executeAsync_inv {fences : Fences} {log : Log} (h : g.executeAsync (.both true) fences = .ok (g', log)) :
    ∃ (run : TwoQueueRun) (batch : Batch), run.Inv g g.walk ∧ exportBatch g.settings g.registry = .ok batch ∧
      log.blocks = run.log.blocks ++ exportBlocks batch ∧ g.Ordered log.blocks := by
  obtain ⟨run, run', hrun, hwait, hexports, -⟩ := executeAsync_stages h
  have hinv : run.Inv g g.walk :=
    TwoQueueRun.foldlM_induction (TwoQueueRun.inv_start g fences)
      (fun _ hx _ _ _ hkept hstep => hkept.step (of_mem_walk hx).1 hstep) hrun
  obtain ⟨ht, he, hover⟩ :=
    TwoQueueRun.waitIfNeeded_spec hinv.tallied hinv.remember.le_of_exportDependency hwait
  have hinv' := hinv.extends ht he
  rw [← he.accesses] at hover
  obtain ⟨batch, hb, e⟩ := Log.recordExports_blocks hexports
  exact ⟨run', batch, hinv', hb, e, e ▸ hinv'.exports hover batch⟩

end Graph

/-! ## What stops a run short -/

/-- the computation stops short of its result for no other reason than an overflow -/
def OnlyOverflow {α : Type} (x : Except Fault α) : Prop := ∀ fault, x = .error fault → fault = .overflow

namespace OnlyOverflow

variable {α β : Type}

theorem ok (a : α) : OnlyOverflow (.ok a) := fun _ h => nomatch h

theorem bind {x : Except Fault α} {f : α → Except Fault β} (hx : OnlyOverflow x) (hf : ∀ a, OnlyOverflow (f a)) :
    OnlyOverflow (x >>= f) := by
  intro fault h
  cases x with
  | error e =>
    obtain rfl : e = fault := Except.error.inj h
    exact hx e rfl
  | ok a => exact hf a fault h

theorem next (f : Fence) : OnlyOverflow f.next := by
  refine bind (fun fault h => ?_) fun _ => ok _
  unfold checkedAdd at h
  split at h <;> cases h
  rfl

variable (syncs : PerQueue Bool) (run : TwoQueueRun)

theorem signal (source : Queue) (position : Nat) : OnlyOverflow (run.signal syncs source position) := by
  unfold TwoQueueRun.signal
  simp only
  split
  · exact ok _
  · exact bind (next _) fun _ => ok _

theorem waitIfNeeded (waiter : Queue) (dependency : Option Nat) :
    OnlyOverflow (run.waitIfNeeded syncs waiter dependency) := by
  cases dependency with
  | none => exact ok _
  | some position =>
    refine bind (signal syncs run _ _) fun result => ?_
    simp only
    split <;> exact ok _

theorem walk (events : Bool) (passes : List (Nat × Pass)) :
    OnlyOverflow (passes.foldlM (fun (run : TwoQueueRun) (i, p) => run.step syncs events i p) run) := by
  induction passes generalizing run with
  | nil => exact ok run
  | cons x passes ih =>
    rw [List.foldlM_cons]
    exact bind (bind (waitIfNeeded syncs run _ _) fun _ => ok _) ih

end OnlyOverflow

namespace Graph

/-- **If the export batch can be made, nothing but a fence that has run out stops a run.** -/
theorem exists_executeAsync {syncs : PerQueue Bool} {fences : Fences} {batch : Batch}
    (hb : exportBatch g.settings g.registry = .ok batch) (hno : g.executeAsync syncs fences ≠ .error .overflow) :
    ∃ log, g.executeAsync syncs fences = .ok (g.afterRun, log) := by
  have honly : OnlyOverflow (g.executeAsync syncs fences) := by
    refine .bind (.walk syncs _ _ _) fun run => .bind (.waitIfNeeded syncs run _ _) fun run => .bind ?_ fun _ => .ok _
    rw [Log.recordExports, hb]
    exact .ok _
  cases hrun : g.executeAsync syncs fences with
  | error fault => exact absurd (honly fault hrun ▸ hrun) hno
  | ok result =>
    obtain ⟨g', log⟩ := result
    obtain ⟨-, -, -, -, -, rfl⟩ := executeAsync_stages hrun
    exact ⟨log, rfl⟩

/-- **Dual-queue hazard freedom.** Each pass is recorded once, in order and on its own queue, and the exports last. Of two
blocks with a hazard the stream of the first has a signal after it, and the stream of the second, before it, a wait for that
signal. -/
theorem executeAsync_ordered {fences : Fences} {log : Log} (h : g.executeAsync (.both true) fences = .ok (g', log)) :
    (∃ blocks batch, log.blocks = blocks ++ exportBlocks batch ∧
      Recorded g.settings.events (fun p => p.kind.queue) g.walk blocks) ∧
    ∀ before x mid y after, log.blocks = before ++ x :: mid ++ y :: after → g.Hazard x y →
      Handover x.queue y.queue mid ∧
      ∃ value satisfied,
        .signal x.queue value ∈ Log.stream ⟨log.fences, mid ++ y :: after⟩ x.queue ∧
        .wait x.queue value satisfied ∈ Log.stream ⟨log.fences, before ++ x :: mid⟩ y.queue := by
  obtain ⟨run, batch, hinv, -, e, hordered⟩ := executeAsync_inv h
  refine ⟨⟨_, batch, e, hinv.recorded⟩, fun before x mid y after e hxy => ?_⟩
  obtain ⟨value, satisfied, hsub⟩ := hordered before x mid y after e hxy
  refine ⟨⟨value, satisfied, hsub⟩, value, satisfied,
    Log.mem_stream.2 ⟨.ofSignal x.queue value, ?_, rfl, List.mem_cons_self⟩,
    Log.mem_stream.2 ⟨.ofWait x.queue y.queue value satisfied, ?_, rfl, List.mem_cons_self⟩⟩
  · exact List.mem_append_left _ (hsub.subset List.mem_cons_self)
  · exact List.mem_append_right _ (List.mem_cons_of_mem _ (hsub.subset (List.mem_cons_of_mem _ List.mem_cons_self)))

/-- in the sample frame the draw and the exports wait for the compute pass -/
theorem executeAsync_ordered_sample :
    ∃ g' stats s', sample.compile CountingDevice.device {} = .ok (g', .ok stats, s') ∧
      ∃ g'' log, g'.executeAsync (.both true) (.both .new) = .ok (g'', log) ∧
        (∃ blocks batch, log.blocks = blocks ++ exportBlocks batch ∧
          Recorded g'.settings.events (fun p => p.kind.queue) g'.walk blocks) ∧
        ∀ before x mid y after, log.blocks = before ++ x :: mid ++ y :: after → g'.Hazard x y →
          Handover x.queue y.queue mid ∧
          ∃ value satisfied,
            .signal x.queue value ∈ Log.stream ⟨log.fences, mid ++ y :: after⟩ x.queue ∧
            .wait x.queue value satisfied ∈ Log.stream ⟨log.fences, before ++ x :: mid⟩ y.queue := by
  obtain ⟨g', stats, s', hc, -, -, -, ⟨g'', log⟩, hrun⟩ := sample_compiles
  exact ⟨g', stats, s', hc, g'', log, hrun, executeAsync_ordered hrun⟩

end Graph

end FrameGraph
