/-
Many frames on two queues: no wait is ever left unsatisfied.

The fences outlive the frames. Between two frames, and from the callbacks of passes, they are signaled with any values. What
happens to them is told as a list of events, and each step of a run adds its own (`Block.fenceEvents`).

- `FenceEvent.Step`: what an event does to the fences. It never lowers them, its value is issued then, and a value is handed
  out once only.
- `Timeline`: events one after another, and the fences before and after.
- `executeAsync_timeline`: the blocks of a run say all that has happened to the fences.
- `Session.waits_satisfied`: whatever frames are run, each wait is for a signal made before it in the same frame, and is
  satisfied when it is recorded.
-/
import FrameGraph.Proofs.Waits

namespace FrameGraph

variable {g g' : Graph}

/-! ## What happens to fences -/

/-- a value of a fence is handed out, or signaled -/
inductive FenceEvent where
  | handedOut (fence : Queue) (value : Nat)
  | signaled (fence : Queue) (value : Nat)

/-- nothing has been completed that was not issued -/
def Fences.Sound (fences : Fences) : Prop := ∀ q, (fences.get q).completed ≤ (fences.get q).issued

namespace FenceEvent

/-- the fence it happens to -/
def fence : FenceEvent → Queue
  | handedOut q _ => q
  | signaled q _ => q

def value : FenceEvent → Nat
  | handedOut _ value => value
  | signaled _ value => value

/-- the fences before and after an event -/
inductive Step : Fences → FenceEvent → Fences → Prop
  | handedOut {fences : Fences} {q : Queue} {value : Nat} {fence : Fence} : (fences.get q).next = .ok (value, fence) →
    Step fences (.handedOut q value) (fences.set q fence)
  | signaled {fences : Fences} (q : Queue) (value : Nat) :
    Step fences (.signaled q value) (fences.set q ((fences.get q).signal value))

namespace Step

variable {fences fences' : Fences} {e : FenceEvent} {q : Queue} {value : Nat}

/-- an event leaves the other fence, and raises its own to its value -/
theorem get_issued (h : Step fences e fences') (q : Queue) :
    (fences'.get q).issued = if q = e.fence then max (fences.get q).issued e.value else (fences.get q).issued := by
  cases h with
  | @handedOut q' value fence hnext =>
    obtain ⟨rfl, rfl⟩ := Fence.next_fresh hnext
    rw [PerQueue.get_set]
    by_cases hq : q = q'
    · subst hq
      simp [FenceEvent.fence, FenceEvent.value]
    · simp [FenceEvent.fence, hq]
  | signaled q' value =>
    rw [PerQueue.get_set]
    by_cases hq : q = q'
    · subst hq
      simp [FenceEvent.fence, FenceEvent.value, Fence.signal]
    · simp [FenceEvent.fence, hq]

theorem issued_le (h : Step fences e fences') (q : Queue) : (fences.get q).issued ≤ (fences'.get q).issued := by
  rw [h.get_issued q]
  split
  · exact Nat.le_max_left _ _
  · exact le_rfl

theorem value_le (h : Step fences e fences') : e.value ≤ (fences'.get e.fence).issued := by
  rw [h.get_issued, if_pos rfl]
  exact Nat.le_max_right _ _

/-- a value that is handed out has not been issued before -/
theorem fresh (h : Step fences (.handedOut q value) fences') : (fences.get q).issued < value := by
  cases h with
  | handedOut hnext =>
    obtain ⟨rfl, -⟩ := Fence.next_fresh hnext
    exact Nat.lt_succ_self _

theorem sound (h : Step fences e fences') (hs : fences.Sound) : fences'.Sound := by
  intro q
  cases h with
  | @handedOut q' value fence hnext =>
    obtain ⟨rfl, rfl⟩ := Fence.next_fresh hnext
    rw [PerQueue.get_set]
    split
    · rename_i hq
      exact (hs q').trans (Nat.le_succ _)
    · exact hs q
  | signaled q' value =>
    rw [PerQueue.get_set]
    split
    · exact max_le_max_right value (hs q')
    · exact hs q

end Step

end FenceEvent

/-- the fences before and after some events -/
inductive Timeline : Fences → List FenceEvent → Fences → Prop
  | nil (fences : Fences) : Timeline fences [] fences
  | cons {fences fences' final : Fences} {e : FenceEvent} {events : List FenceEvent} :
    e.Step fences fences' → Timeline fences' events final → Timeline fences (e :: events) final

namespace Timeline

variable {start mid final : Fences} {events more : List FenceEvent} {q : Queue} {value : Nat}

theorem append (h : Timeline start events mid) (h' : Timeline mid more final) : Timeline start (events ++ more) final := by
  induction h with
  | nil => exact h'
  | cons he _ ih => exact cons he (ih h')

/-- the fences at some point -/
theorem split (h : Timeline start (events ++ more) final) : ∃ now, Timeline start events now ∧ Timeline now more final := by
  induction events generalizing start with
  | nil => exact ⟨start, nil start, h⟩
  | cons e events ih =>
    cases h with
    | cons he h =>
      obtain ⟨now, h1, h2⟩ := ih h
      exact ⟨now, cons he h1, h2⟩

theorem issued_le (h : Timeline start events final) (q : Queue) : (start.get q).issued ≤ (final.get q).issued := by
  induction h with
  | nil => exact le_rfl
  | cons he _ ih => exact (he.issued_le q).trans ih

theorem value_le (h : Timeline start events final) : ∀ e ∈ events, e.value ≤ (final.get e.fence).issued := by
  induction h with
  | nil => exact fun _ he => nomatch he
  | @cons _ _ _ e _ he h ih =>
    refine List.forall_mem_cons.2 ⟨?_, ih⟩
    calc e.value ≤ _ := he.value_le
      _ ≤ _ := h.issued_le e.fence

theorem sound (h : Timeline start events final) (hs : start.Sound) : final.Sound := by
  induction h with
  | nil => exact hs
  | cons he _ ih => exact ih (he.sound hs)

/-- **A value that is handed out is past everything handed out or signaled before.** -/
theorem fresh (h : Timeline start (events ++ .handedOut q value :: more) final) :
    (start.get q).issued < value ∧ ∀ e ∈ events, e.fence = q → e.value < value := by
  obtain ⟨now, hevents, h⟩ := h.split
  cases h with
  | cons he _ =>
    refine ⟨(hevents.issued_le q).trans_lt he.fresh, ?_⟩
    rintro e hmem rfl
    exact (hevents.value_le e hmem).trans_lt he.fresh

end Timeline

/-! ## What a run does to the fences -/

/-- what a command does to the fences, or what it stands for: the values a run signals itself have been handed out before -/
def Command.fenceEvents (source : Source) : Command → List FenceEvent
  | signal q value => if source = .sync then [.handedOut q value, .signaled q value] else [.signaled q value]
  | _ => []

def Block.fenceEvents (b : Block) : List FenceEvent := b.commands.flatMap (Command.fenceEvents b.source)

/-- what actions leave of the fences is told by the commands written down -/
theorem timeline_record {source : Source} (hs : source ≠ .sync) (fences : Fences) (actions : List Action) :
    Timeline fences ((Action.record true fences actions).flatMap (Command.fenceEvents source))
      (Action.advanceAll true fences actions) := by
  induction actions generalizing fences with
  | nil => exact .nil fences
  | cons a actions ih =>
    rw [Action.record, List.flatMap_append]
    refine Timeline.append ?_ (ih (a.advance true fences))
    cases a with
    | signal q value =>
      have e : Command.fenceEvents source (.signal q value) = [.signaled q value] := if_neg hs
      simp only [Action.command?, if_true, Option.toList_some, List.flatMap_cons, List.flatMap_nil, List.append_nil, e]
      exact .cons (.signaled q value) (.nil _)
    | _ => exact .nil fences

namespace TwoQueueRun

variable {walked : List (Nat × Pass)} {run run' : TwoQueueRun} {start : Fences}

/-- what has happened to the fences so far -/
def Told (start : Fences) (run : TwoQueueRun) : Prop :=
  Timeline start (run.log.blocks.flatMap Block.fenceEvents) run.log.fences

theorem Told.record (h : run.Told start) (queue : Queue) {source : Source} (hs : source ≠ .sync) (actions : List Action) :
    Timeline start ((run.log.record (.both true) queue source actions).blocks.flatMap Block.fenceEvents)
      (run.log.record (.both true) queue source actions).fences := by
  rw [Log.record, List.flatMap_append, List.flatMap_singleton, PerQueue.get_both]
  exact h.append (timeline_record hs _ _)

/-- a queue that waits hands out the value it signals, and signals it -/
theorem Told.wait (h : run.Told start) (hx : run.Exact g walked) {waiter : Queue} {dependency : Option Nat}
    (hw : run.waitIfNeeded (.both true) waiter dependency = .ok run') : run'.Told start := by
  rcases waitIfNeeded_cases hx.tallied hx.prompt hw with ⟨rfl, -⟩ | ⟨rfl, ⟨fence, hnext⟩, -⟩
  · exact h
  · obtain ⟨-, rfl⟩ := Fence.next_fresh hnext
    have e : (handoverBlocks waiter.other ((run.log.fences.get waiter.other).issued + 1)).flatMap Block.fenceEvents =
        [.handedOut waiter.other ((run.log.fences.get waiter.other).issued + 1),
          .signaled waiter.other ((run.log.fences.get waiter.other).issued + 1)] := rfl
    rw [Told, handOver, List.flatMap_append, e]
    exact h.append (.cons (.handedOut hnext) (.cons (.signaled _ _) (.nil _)))

end TwoQueueRun

/-- **The blocks of a run say all that has happened to the fences.** -/
theorem executeAsync_timeline {fences : Fences} {log : Log} (h : g.executeAsync (.both true) fences = .ok (g', log)) :
    Timeline fences (log.blocks.flatMap Block.fenceEvents) log.fences := by
  obtain ⟨run, run', hrun, hwait, hexports, -⟩ := Graph.executeAsync_stages h
  obtain ⟨hexact, htold⟩ : run.Exact g g.walk ∧ run.Told fences := by
    refine TwoQueueRun.foldlM_induction (P := fun walked run => run.Exact g walked ∧ run.Told fences)
      ⟨TwoQueueRun.exact_start g fences, .nil fences⟩ (fun x hx walked run run' hkept hstep => ?_) hrun
    refine ⟨hkept.1.step (Graph.of_mem_walk hx).1 hstep, ?_⟩
    obtain ⟨run₁, hwait, hstep⟩ := bind_eq_ok.1 hstep
    cases hstep
    exact (hkept.2.wait hkept.1 hwait).record _ Source.noConfusion _
  obtain ⟨batch, -, hexports⟩ := bind_eq_ok.1 hexports
  cases hexports
  split
  · exact (htold.wait hexact hwait).record _ Source.noConfusion _
  · exact htold.wait hexact hwait

/-- the signals and waits of a run, when it starts after some events -/
structure Log.Satisfied (start : Fences) (events : List FenceEvent) (log : Log) : Prop where
  /-- a run makes no other blocks than those of passes and exports, signals and waits -/
  syncs : ∀ b ∈ log.blocks, b.source = .sync → b.IsSync
  /-- a wait finds its value reached, for the other queue has signaled it before in the same run -/
  waits : ∀ before q value satisfied after, log.blocks = before ++ .ofWait q q.other value satisfied :: after →
    satisfied = true ∧ .ofSignal q value ∈ before
  /-- a signal is past everything signaled or handed out before -/
  signals : ∀ before q value after, log.blocks = before ++ .ofSignal q value :: after →
    (start.get q).issued < value ∧ ∀ e ∈ events ++ before.flatMap Block.fenceEvents, e.fence = q → e.value < value

/-- **The signals of a run are past everything before them, and its waits are for these signals.** -/
theorem executeAsync_satisfied {start fences : Fences} {events : List FenceEvent} {log : Log}
    (h : g.executeAsync (.both true) fences = .ok (g', log)) (ht : Timeline start events fences) :
    log.Satisfied start events := by
  have htimeline := ht.append (executeAsync_timeline h)
  obtain ⟨run, run', batch, -, hw, e⟩ := Graph.executeAsync_waited h
  -- the exports are no signals or waits
  have hsync : ∀ {before after : List Block} {b : Block}, log.blocks = before ++ b :: after → b.source = .sync →
      ∃ after', run'.log.blocks = before ++ b :: after' := fun hb hs =>
    exists_eq_append_of_exportBlocks (e.symm.trans hb) (by rw [hs]; exact Source.noConfusion)
  refine ⟨fun b hb hs => ?_, fun before q value satisfied after hb => ?_, fun before q value after hb => ?_⟩
  · obtain ⟨before, after, hb⟩ := List.append_of_mem hb
    obtain ⟨after', hb⟩ := hsync hb hs
    exact hw.syncs b (hb ▸ List.mem_append_right _ List.mem_cons_self) hs
  · obtain ⟨after', hb⟩ := hsync hb rfl
    obtain ⟨hsignal, hsatisfied⟩ := hw.paired.of_wait hb
    exact ⟨hsatisfied, hsignal.subset List.mem_cons_self⟩
  · have hsignal : (Block.ofSignal q value).fenceEvents = [.handedOut q value, .signaled q value] := rfl
    rw [hb, List.flatMap_append, List.flatMap_cons, hsignal, ← List.append_assoc] at htimeline
    exact htimeline.fresh

/-! ## Frames one after another -/

/-- a graph is run and leaves a log, or something else happens to a fence -/
inductive Happening where
  | frame (g : Graph) (log : Log)
  | outside (e : FenceEvent)

/-- what it does to the fences -/
def Happening.fenceEvents : Happening → List FenceEvent
  | frame _ log => log.blocks.flatMap Block.fenceEvents
  | outside e => [e]

/-- frames and other things happen to one pair of fences, whatever graphs are run and whatever is signaled in between -/
inductive Session : Fences → List Happening → Fences → Prop
  | nil (fences : Fences) : Session fences [] fences
  | frame {g g' : Graph} {log : Log} {fences final : Fences} {rest : List Happening} :
    g.executeAsync (.both true) fences = .ok (g', log) → Session log.fences rest final →
      Session fences (.frame g log :: rest) final
  | outside {e : FenceEvent} {fences fences' final : Fences} {rest : List Happening} :
    e.Step fences fences' → Session fences' rest final → Session fences (.outside e :: rest) final

namespace Session

variable {start final : Fences} {happenings rest : List Happening}

/-- frame by frame, the blocks say all that has happened to the fences -/
theorem timeline (h : Session start happenings final) :
    Timeline start (happenings.flatMap Happening.fenceEvents) final := by
  induction h with
  | nil fences => exact .nil fences
  | frame hrun _ ih => exact (executeAsync_timeline hrun).append ih
  | outside he _ ih => exact .cons he ih

/-- the fences when a frame begins -/
theorem split (h : Session start (happenings ++ rest) final) :
    ∃ now, Session start happenings now ∧ Session now rest final := by
  induction happenings generalizing start with
  | nil => exact ⟨start, nil start, h⟩
  | cons x happenings ih =>
    cases h with
    | frame hrun h =>
      obtain ⟨now, h1, h2⟩ := ih h
      exact ⟨now, frame hrun h1, h2⟩
    | outside he h =>
      obtain ⟨now, h1, h2⟩ := ih h
      exact ⟨now, outside he h1, h2⟩

/-- **Waits are always satisfiable over many frames.** At every point nothing has been completed that was not issued, and in
each frame the waits are for signals made before them, which are past everything so far. -/
theorem waits_satisfied (hs : start.Sound) (h : Session start happenings final) :
    (∀ earlier later, happenings.flatMap Happening.fenceEvents = earlier ++ later →
      ∃ now, Timeline start earlier now ∧ Timeline now later final ∧ now.Sound) ∧
    ∀ before g log after, happenings = before ++ .frame g log :: after →
      log.Satisfied start (before.flatMap Happening.fenceEvents) := by
  refine ⟨fun earlier later e => ?_, fun before g log after e => ?_⟩
  · obtain ⟨now, h1, h2⟩ := (e ▸ h.timeline).split
    exact ⟨now, h1, h2, h1.sound hs⟩
  · obtain ⟨now, h1, h2⟩ := (e ▸ h).split
    cases h2 with
    | frame hrun _ => exact executeAsync_satisfied hrun h1.timeline

/-- a compute pass and a graphics pass that write one buffer, and whose callbacks signal both fences -/
def pushing : Graph :=
  let (g, b) := (Graph.new {}).create (k := .buffer) ⟨none, 8, 0#_, 0⟩
  let g := (g.addPass "fill" .compute [.access ⟨.buffer, b⟩ .unorderedAccess .write]
    fun n => [.signal .compute (10 * n), .signal .graphics 3]).1
  (g.addPass "draw" .graphics [.access ⟨.buffer, b⟩ .unorderedAccess .write] fun n => [.signal .compute (100 * n)]).1

/-- two frames, with a signal in between: the compute queue signals past whatever has been signaled -/
theorem waits_satisfied_pushing : ∃ log log' final, Session (.both .new)
      [.frame pushing log, .outside (.signaled .graphics 50), .frame pushing.afterRun log'] final ∧
    signalsOn .compute log.blocks = [11] ∧ signalsOn .compute log'.blocks = [101] ∧
    (∀ earlier later, [Happening.frame pushing log, .outside (.signaled .graphics 50),
        .frame pushing.afterRun log'].flatMap Happening.fenceEvents = earlier ++ later →
      ∃ now, Timeline (.both .new) earlier now ∧ Timeline now later final ∧ now.Sound) ∧
    ∀ before g frame after, [Happening.frame pushing log, .outside (.signaled .graphics 50),
        .frame pushing.afterRun log'] = before ++ .frame g frame :: after →
      frame.Satisfied (.both .new) (before.flatMap Happening.fenceEvents) := by
  have h : (match pushing.executeAsync (.both true) (.both .new) with
      | .ok (_, log) =>
        match pushing.afterRun.executeAsync (.both true)
            (log.fences.set .graphics ((log.fences.get .graphics).signal 50)) with
        | .ok (_, log') =>
          decide (signalsOn .compute log.blocks = [11]) && decide (signalsOn .compute log'.blocks = [101])
        | _ => false
      | _ => false) = true := by decide +kernel
  split at h
  · rename_i g log hrun
    split at h
    · rename_i g' log' hrun'
      rw [Bool.and_eq_true, decide_eq_true_eq, decide_eq_true_eq] at h
      have hs : Fences.Sound (.both .new) := fun q => by
        rw [PerQueue.get_both]
        exact le_rfl
      have hsession := frame hrun (outside (.signaled _ _) (frame hrun' (nil _)))
      exact ⟨log, log', _, hsession, h.1, h.2, waits_satisfied hs hsession⟩
    · cases h
  · cases h

end Session

end FrameGraph
