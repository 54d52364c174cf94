/-
A frame on two queues: nothing is waited for in vain.

A queue waits right before a pass if and only if a pass the other queue has recorded conflicts with it and has not been
handed over (`Graph.Outstanding`), and at the end of the walk it is the same with the exports. So no wait is missing
(`Graph.Ordered` says as much), and none is made twice or for something no one needs.

The run decides by positions: a queue waits if what it depends on was recorded after the last signal of the other queue.
Two facts about a run make this exact (`TwoQueueRun.Prompt`). Whatever has been signaled has been waited for, so that a
signal that serves again needs no wait. And what is remembered of a resource are accesses passes did make
(`Accesses.Genuine`), so that a position stands for a pass with a hazard.

- `waitIfNeeded_cases`: a queue that waits records a fresh signal and the wait for it, or nothing.
- `outstanding_iff`: it waits if and only if something is outstanding.
- `Graph.executeAsync_exact`: every wait of a whole run is needed, and every signal is waited for once.
-/
import FrameGraph.Proofs.TwoQueues

namespace FrameGraph

variable {g g' : Graph}

/-! ## Signals with the waits for them -/

/-- one queue signals a value, and the other one waits for it -/
def handoverBlocks (q : Queue) (value : Nat) : List Block := [.ofSignal q value, .ofWait q q.other value true]

/-- the blocks are those of passes and exports, and signals each with the wait for it -/
inductive Paired : List Block → Prop
  | nil : Paired []
  | other {b : Block} {blocks : List Block} : b.source ≠ .sync → Paired blocks → Paired (b :: blocks)
  | handover {blocks : List Block} (q : Queue) (value : Nat) : Paired blocks → Paired (handoverBlocks q value ++ blocks)

/-- the values a queue waits for, in order -/
def waitsOf (q : Queue) (blocks : List Block) : List Nat :=
  (blocks.filter fun b => decide (b.source = .sync ∧ b.queue = q)).flatMap fun b => b.commands.filterMap fun
    | .wait _ value _ => some value
    | _ => none

theorem waitsOf_append (q : Queue) (blocks more : List Block) :
    waitsOf q (blocks ++ more) = waitsOf q blocks ++ waitsOf q more := by
  rw [waitsOf, List.filter_append, List.flatMap_append]
  rfl

theorem waitsOf_handoverBlocks (q f : Queue) (value : Nat) :
    waitsOf f.other (handoverBlocks q value) = if q = f then [value] else [] := by
  cases q <;> cases f <;> rfl

theorem signalsOn_handoverBlocks (q f : Queue) (value : Nat) :
    signalsOn f (handoverBlocks q value) = if q = f then [value] else [] := by
  cases q <;> cases f <;> rfl

namespace Paired

variable {blocks blocks' before after : List Block} {q : Queue} {value : Nat} {satisfied : Bool}

theorem append (h : Paired blocks) (h' : Paired blocks') : Paired (blocks ++ blocks') := by
  induction h with
  | nil => exact h'
  | other hb _ ih => exact other hb ih
  | handover q value _ ih => exact handover q value ih

/-- a wait comes right after the signal it is for, and is satisfied -/
theorem of_wait (h : Paired blocks) (e : blocks = before ++ .ofWait q q.other value satisfied :: after) :
    [.ofSignal q value] <:+ before ∧ satisfied = true := by
  induction h generalizing before with
  | nil => exact absurd e.symm (List.append_ne_nil_of_right_ne_nil before (List.cons_ne_nil _ after))
  | other hb _ ih =>
    cases before with
    | nil =>
      cases e
      exact absurd rfl hb
    | cons c before =>
      obtain ⟨hsignal, hs⟩ := ih (List.cons.inj e).2
      exact ⟨hsignal.trans (List.suffix_cons c before), hs⟩
  | handover f v _ ih =>
    match before with
    | [] => cases e
    | [c] =>
      obtain ⟨rfl, hrest⟩ := List.cons.inj e
      obtain ⟨rfl, rfl, hs⟩ := Block.ofWait_inj (List.cons.inj hrest).1
      exact ⟨List.suffix_rfl, hs.symm⟩
    | c :: d :: before =>
      obtain ⟨hsignal, hs⟩ := ih (List.cons.inj (List.cons.inj e).2).2
      exact ⟨hsignal.trans ((List.suffix_cons d before).trans (List.suffix_cons c _)), hs⟩

/-- the wait for a signal comes right after it -/
theorem of_signal (h : Paired blocks) (e : blocks = before ++ .ofSignal q value :: after) :
    [.ofWait q q.other value true] <+: after := by
  induction h generalizing before with
  | nil => exact absurd e.symm (List.append_ne_nil_of_right_ne_nil before (List.cons_ne_nil _ after))
  | other hb _ ih =>
    cases before with
    | nil =>
      cases e
      exact absurd rfl hb
    | cons c before => exact ih (List.cons.inj e).2
  | handover f v _ ih =>
    match before with
    | [] =>
      cases e
      exact ⟨_, rfl⟩
    | [c] => cases e
    | c :: d :: before => exact ih (List.cons.inj (List.cons.inj e).2).2

/-- a queue waits for the values the other one signals -/
theorem waitsOf_eq (h : Paired blocks) (q : Queue) : waitsOf q.other blocks = signalsOn q blocks := by
  induction h with
  | nil => rfl
  | @other b blocks hb _ ih =>
    have hs : ∀ f, signalsOn f [b] = [] := fun f => by simp [signalsOn, hb]
    have hw : ∀ f, waitsOf f [b] = [] := fun f => by simp [waitsOf, hb]
    rw [← List.singleton_append, waitsOf_append, signalsOn_append, hs, hw, ih]
  | handover f value _ ih =>
    rw [waitsOf_append, signalsOn_append, waitsOf_handoverBlocks, signalsOn_handoverBlocks, ih]

end Paired

/-! ## The end of what is recorded -/

/-- the blocks without the signals and waits at the end -/
def beforeSyncs (blocks : List Block) : List Block := blocks.rdropWhile fun b => decide (b.source = .sync)

/-- the last block is a wait of the queue for the other one -/
def EndsInWait (q : Queue) (blocks : List Block) : Prop :=
  ∃ value satisfied, [Block.ofWait q.other q value satisfied] <:+ blocks

theorem beforeSyncs_sync {b : Block} (hb : b.source = .sync) (blocks : List Block) :
    beforeSyncs (blocks ++ [b]) = beforeSyncs blocks :=
  List.rdropWhile_concat_pos _ _ _ (decide_eq_true hb)

theorem beforeSyncs_handover (blocks : List Block) (q : Queue) (value : Nat) :
    beforeSyncs (blocks ++ handoverBlocks q value) = beforeSyncs blocks := by
  have e : blocks ++ handoverBlocks q value =
      (blocks ++ [.ofSignal q value]) ++ [.ofWait q q.other value true] := by
    rw [List.append_assoc]
    rfl
  rw [e, beforeSyncs_sync rfl, beforeSyncs_sync rfl]

theorem beforeSyncs_pass {b : Block} (hb : b.source.isPass = true) (blocks : List Block) :
    beforeSyncs (blocks ++ [b]) = blocks ++ [b] := by
  refine List.rdropWhile_concat_neg _ _ _ fun hs => ?_
  rw [of_decide_eq_true hs] at hb
  cases hb

/-- what has no signals and waits at the end does not end in a wait -/
theorem not_endsInWait {q : Queue} {blocks : List Block} (h : beforeSyncs blocks = blocks) : ¬ EndsInWait q blocks := by
  rintro ⟨value, satisfied, earlier, rfl⟩
  rw [beforeSyncs_sync rfl] at h
  have hle : (beforeSyncs earlier).length ≤ earlier.length := (List.rdropWhile_prefix _ earlier).length_le
  rw [h, List.length_append, List.length_singleton] at hle
  exact Nat.not_succ_le_self _ hle

theorem endsInWait_handover {blocks : List Block} {q f : Queue} {value : Nat} :
    EndsInWait f (blocks ++ handoverBlocks q value) ↔ f = q.other := by
  have e : blocks ++ handoverBlocks q value =
      (blocks ++ [.ofSignal q value]) ++ [.ofWait q q.other value true] := by
    rw [List.append_assoc]
    rfl
  constructor
  · rintro ⟨value', satisfied, earlier, he⟩
    rw [e] at he
    injection (List.append_inj' he rfl).2 with he
    injection he
  · rintro rfl
    refine ⟨value, true, blocks ++ [.ofSignal q value], ?_⟩
    rw [e, Queue.other_other]

/-- what is recorded right after a wait is a pass, on the queue that waits -/
def WaitsFollowed (blocks : List Block) : Prop :=
  ∀ q before z after, blocks = before ++ z :: after → EndsInWait q before → z.queue = q ∧ z.source.isPass = true

namespace WaitsFollowed

variable {blocks : List Block} {b : Block}

theorem concat (h : WaitsFollowed blocks) (hb : ∀ q, EndsInWait q blocks → b.queue = q ∧ b.source.isPass = true) :
    WaitsFollowed (blocks ++ [b]) := by
  intro q before z after e hends
  rcases eq_append_or_eq_append e with ⟨after', e', -⟩ | ⟨more, hmore, rfl⟩
  · exact h q before z after' e' hends
  · obtain ⟨rfl, rfl⟩ := eq_of_singleton_eq_append hmore
    rw [List.append_nil] at hends
    exact hb q hends

theorem handover (h : WaitsFollowed blocks) (hrest : beforeSyncs blocks = blocks) (q : Queue) (value : Nat) :
    WaitsFollowed (blocks ++ handoverBlocks q value) := by
  have e : blocks ++ handoverBlocks q value =
      (blocks ++ [.ofSignal q value]) ++ [.ofWait q q.other value true] := by
    rw [List.append_assoc]
    rfl
  rw [e]
  refine (h.concat fun f hends => absurd hends (not_endsInWait hrest)).concat fun f hends => ?_
  obtain ⟨value', satisfied, earlier, he⟩ := hends
  injection (List.append_inj' he rfl).2 with he
  injection he with _ _ hc
  injection hc with hc
  cases hc

end WaitsFollowed

/-! ## What a queue has to wait for -/

/-- a block recorded on another queue has a hazard with this one and has not been handed over. (A longer chain of signals
and waits between the two queues begins with a handover.) -/
def Graph.Outstanding (g : Graph) (blocks : List Block) (y : Block) : Prop :=
  ∃ before x mid, blocks = before ++ x :: mid ∧ g.Hazard x y ∧ ¬ Handover x.queue y.queue mid

/-- the pass is the one recorded on the queue with this number, counting from one -/
def Numbered (passes : List Pass) (blocks : List Block) (q : Queue) (n : Nat) (p : Pass) : Prop :=
  ∃ before x mid, blocks = before ++ x :: mid ∧ x.IsOf passes p ∧ x.queue = q ∧ passCount q before + 1 = n

/-- what is remembered are accesses of passes -/
structure Accesses.Genuine (passes : List Pass) (blocks : List Block) (a : Accesses) : Prop where
  change : ∀ key q n, (a.of key).change = some (q, n) →
    ∃ p, Numbered passes blocks q n p ∧ p.Uses key ∧ p.Alters key
  read : ∀ key q n, (a.of key).read.get q = some n → ∃ p, Numbered passes blocks q n p ∧ p.Uses key

theorem Numbered.append {passes : List Pass} {blocks : List Block} {q : Queue} {n : Nat} {p : Pass}
    (h : Numbered passes blocks q n p) (more : List Block) : Numbered passes (blocks ++ more) q n p := by
  obtain ⟨before, x, mid, rfl, hx⟩ := h
  exact ⟨before, x, mid ++ more, List.append_assoc _ _ _, hx⟩

namespace Accesses

variable {passes : List Pass} {blocks : List Block} {a : Accesses}

theorem genuine_start (passes : List Pass) : Genuine passes [] [] where
  change := fun _ _ _ h => nomatch h
  read := fun _ q _ h => by cases q <;> cases h

theorem Genuine.append (h : a.Genuine passes blocks) (more : List Block) : a.Genuine passes (blocks ++ more) where
  change := fun key q n hn => (h.change key q n hn).imp fun _ hp => hp.imp_left (Numbered.append · more)
  read := fun key q n hn => (h.read key q n hn).imp fun _ hp => hp.imp_left (Numbered.append · more)

/-- **A pass notes its own accesses only.** -/
theorem Genuine.pass {p : Pass} {i : Nat} (h : a.Genuine passes blocks) (hi : passes[i]? = some p)
    (commands : List Command) :
    (p.noteAccesses (passCount p.kind.queue blocks + 1) a).Genuine passes
      (blocks ++ [⟨p.kind.queue, .pass i, commands⟩]) := by
  have hp : Numbered passes (blocks ++ [⟨p.kind.queue, .pass i, commands⟩]) p.kind.queue
      (passCount p.kind.queue blocks + 1) p :=
    ⟨blocks, _, [], rfl, ⟨i, rfl, hi⟩, rfl, rfl⟩
  refine ⟨fun key q n hn => ?_, fun key q n hn => ?_⟩
  · rcases Pass.change_noteAccesses hn with ⟨rfl, rfl, hu, ha⟩ | hn
    · exact ⟨p, hp, hu, ha⟩
    · exact (h.append _).change key q n hn
  · rcases Pass.read_noteAccesses hn with ⟨rfl, rfl, hu⟩ | hn
    · exact ⟨p, hp, hu⟩
    · exact (h.append _).read key q n hn

end Accesses

namespace TwoQueueRun

variable {run run' : TwoQueueRun} {walked : List (Nat × Pass)}

/-- the last signal of a queue stands for so many passes of it, or more -/
def Covers (run : TwoQueueRun) (q : Queue) (n : Nat) : Prop :=
  ∃ position value, (run.progress.get q).signaled = some (position, value) ∧ n ≤ position

/-- the last signal of each queue has been waited for, and stands for all the work any signal of it stands for -/
structure Prompt (run : TwoQueueRun) : Prop where
  waited : ∀ q position value, (run.progress.get q).signaled = some (position, value) →
    (run.progress.get q.other).waited = value
  last : ∀ q earlier value since, run.log.blocks = earlier ++ .ofSignal q value :: since →
    run.Covers q (passCount q earlier)

theorem prompt_start (fences : Fences) : Prompt { log := { fences } } where
  waited := fun q _ _ h => by cases q <;> cases h
  last := fun _ earlier _ since h =>
    absurd h.symm (List.append_ne_nil_of_right_ne_nil earlier (List.cons_ne_nil _ since))

/-- **A pass has been handed over if and only if the last signal of its queue stands for it.** -/
theorem handover_iff_covers (ht : run.Tallied) (hp : run.Prompt) {before mid : List Block} {x : Block}
    (e : run.log.blocks = before ++ x :: mid) (hx : x.source.isPass = true) :
    Handover x.queue x.queue.other mid ↔ run.Covers x.queue (passCount x.queue before + 1) := by
  constructor
  · rintro ⟨value, satisfied, hsub⟩
    obtain ⟨mid₁, mid₂, rfl⟩ := List.append_of_mem (hsub.subset List.mem_cons_self)
    obtain ⟨position, value', hs, hn⟩ := hp.last x.queue (before ++ x :: mid₁) value mid₂ (by rw [e, List.append_assoc]; rfl)
    refine ⟨position, value', hs, le_trans ?_ hn⟩
    rw [passCount_append, ← List.singleton_append, passCount_append]
    have hone : passCount x.queue [x] = 1 := by simp [passCount, hx]
    omega
  · rintro ⟨position, value, hs, hn⟩
    obtain ⟨-, since, hafter, hsince⟩ := ht.signaled x.queue position value hs
    obtain ⟨satisfied, hm⟩ := hsince (hp.waited x.queue position value hs)
    have hover : HandedOver x.queue position (before ++ x :: mid) := ⟨value, since, satisfied, e ▸ hafter, hm⟩
    exact hover.handover hn

/-! ## Waiting -/

/-- one queue signals all its work, and the other one waits for it -/
def handOver (run : TwoQueueRun) (q : Queue) : TwoQueueRun :=
  let value := (run.log.fences.get q).issued + 1
  let raised := run.log.fences.set q { run.log.fences.get q with issued := value }
  let signaled := run.progress.set q
    { run.progress.get q with signaled := some ((run.progress.get q).recorded, value) }
  { run with
    log := ⟨raised.set q ((raised.get q).signal value), run.log.blocks ++ handoverBlocks q value⟩
    progress := signaled.set q.other { signaled.get q.other with waited := value } }

/-- **A queue that waits records a fresh signal and the wait for it, or nothing,** and it is nothing if and only if the last
signal of the other queue stands for what it depends on. -/
theorem waitIfNeeded_cases {waiter : Queue} {dependency : Option Nat} (ht : run.Tallied) (hp : run.Prompt)
    (h : run.waitIfNeeded (.both true) waiter dependency = .ok run') :
    (run' = run ∧ ∀ n, dependency = some n → run.Covers waiter.other n) ∨
      (run' = run.handOver waiter.other ∧
        (∃ fence, (run.log.fences.get waiter.other).next = .ok ((run.log.fences.get waiter.other).issued + 1, fence)) ∧
        ∃ n, dependency = some n ∧ ¬ run.Covers waiter.other n) := by
  cases dependency with
  | none =>
    cases h
    exact .inl ⟨rfl, fun n hn => nomatch hn⟩
  | some position =>
    obtain ⟨q, rfl⟩ : ∃ q : Queue, waiter = q.other := ⟨waiter.other, waiter.other_other.symm⟩
    rw [waitIfNeeded, waitFor, Queue.other_other] at h
    rw [Queue.other_other]
    obtain ⟨⟨value, run₁⟩, hsignal, h⟩ := bind_eq_ok.1 h
    cases hf : (run.progress.get q).signaled.filter (position ≤ ·.1) with
    | some last =>
      -- an old signal serves again, and it has been waited for
      simp only [signal, hf] at hsignal
      cases hsignal
      obtain ⟨hs, hn⟩ := Option.filter_eq_some_iff.1 hf
      simp only [hp.waited q last.1 last.2 hs, le_refl, if_true] at h
      cases h
      refine .inl ⟨rfl, fun n hn' => ?_⟩
      cases hn'
      exact ⟨last.1, last.2, hs, of_decide_eq_true hn⟩
    | none =>
      simp only [signal, hf] at hsignal
      obtain ⟨⟨value', fence⟩, hnext, hsignal⟩ := bind_eq_ok.1 hsignal
      obtain ⟨rfl, rfl⟩ := Fence.next_fresh hnext
      cases hsignal
      have hwaited : ¬ (run.log.fences.get q).issued + 1 ≤ (run.progress.get q.other).waited :=
        Nat.not_le.2 (Nat.lt_succ_of_le (ht.waited q))
      simp only [PerQueue.get_set_other, hwaited, if_false] at h
      refine .inr ⟨?_, ⟨_, hnext⟩, position, rfl, ?_⟩
      · cases h
        simp [handOver, handoverBlocks, Log.record, Action.record, Action.command?, Action.advanceAll, Action.advance,
          Block.ofSignal, Block.ofWait, Fence.reached, Fence.signal, PerQueue.get_set_self, PerQueue.get_set_other]
      · rintro ⟨last, value, hs, hn⟩
        rw [hs, Option.filter_some, if_pos (decide_eq_true hn)] at hf
        cases hf

theorem Covers.mono {q : Queue} {m n : Nat} (h : run.Covers q n) (hm : m ≤ n) : run.Covers q m := by
  obtain ⟨position, value, hs, hn⟩ := h
  exact ⟨position, value, hs, hm.trans hn⟩

/-- one more pass leaves the signals of both queues waited for -/
theorem Prompt.pass (h : run.Prompt) (q : Queue) (i : Nat) (actions : List Action) (a : Accesses) :
    Prompt {
      log := run.log.record (.both true) q (.pass i) actions
      progress := run.progress.set q { run.progress.get q with recorded := (run.progress.get q).recorded + 1 }
      accesses := a } := by
  have hwaited := PerQueue.apply_get_set Progress.waited (p := run.progress) (q := q)
    (a := { run.progress.get q with recorded := (run.progress.get q).recorded + 1 }) rfl
  have hsignaled := PerQueue.apply_get_set Progress.signaled (p := run.progress) (q := q)
    (a := { run.progress.get q with recorded := (run.progress.get q).recorded + 1 }) rfl
  refine ⟨fun r position value hs => ?_, fun r earlier value since e => ?_⟩
  · simp only [hsignaled] at hs
    simp only [hwaited]
    exact h.waited r position value hs
  · simp only [Covers, hsignaled]
    rcases eq_append_or_eq_append e with ⟨since', e', -⟩ | ⟨more, hmore, -⟩
    · exact h.last r earlier value since' e'
    · cases (eq_of_singleton_eq_append hmore).2

/-- so does a signal that is waited for at once -/
theorem Prompt.handOver (h : run.Prompt) (ht : run.Tallied) (q : Queue) : (run.handOver q).Prompt := by
  have hself : (run.handOver q).progress.get q = { run.progress.get q with
      signaled := some ((run.progress.get q).recorded, (run.log.fences.get q).issued + 1) } := by
    cases q <;> rfl
  have hother : (run.handOver q).progress.get q.other = { run.progress.get q.other with
      waited := (run.log.fences.get q).issued + 1 } := by
    cases q <;> rfl
  refine ⟨fun r position value hs => ?_, fun r earlier value since e => ?_⟩
  · rcases q.eq_or_eq_other r with rfl | rfl
    · rw [hself] at hs
      rw [hother]
      cases hs
      rfl
    · rw [hother] at hs
      rw [Queue.other_other, hself]
      have hw := h.waited q.other position value hs
      rwa [Queue.other_other] at hw
  · rcases q.eq_or_eq_other r with rfl | rfl
    · -- all the work of the queue is behind the new signal
      refine ⟨_, _, congrArg Progress.signaled hself, ?_⟩
      rw [ht.recorded]
      rcases eq_append_or_eq_append e with ⟨since', e', -⟩ | ⟨more, hmore, rfl⟩
      · rw [e', passCount_append]
        exact Nat.le_add_right _ _
      · match more with
        | [] => exact (congrArg (passCount r) (List.append_nil _)).le
        | [c] =>
          injection (List.cons.inj (List.cons.inj hmore).2).1 with _ _ hc
          cases hc
        | c :: d :: more =>
          exact absurd (List.cons.inj (List.cons.inj hmore).2).2.symm
            (List.append_ne_nil_of_right_ne_nil more (List.cons_ne_nil _ since))
    · have hold : run.Covers q.other (passCount q.other earlier) := by
        rcases eq_append_or_eq_append e with ⟨since', e', -⟩ | ⟨more, hmore, -⟩
        · exact h.last q.other earlier value since' e'
        · have hmem : .ofSignal q.other value ∈ handoverBlocks q ((run.log.fences.get q).issued + 1) :=
            hmore ▸ List.mem_append_right more List.mem_cons_self
          cases q <;> simp [handoverBlocks, Block.ofSignal, Block.ofWait, Queue.other] at hmem
      obtain ⟨position, value', hs, hn⟩ := hold
      exact ⟨position, value', (congrArg Progress.signaled hother).trans hs, hn⟩

/-- **Something is outstanding if and only if it was recorded after the last signal,** where the position a queue depends on
is that of a hazard, and past every hazard that has not been handed over. -/
theorem outstanding_iff (ht : run.Tallied) (hp : run.Prompt) {y : Block} {dependency : Option Nat}
    (hsound : ∀ n, dependency = some n → ∃ before x mid, run.log.blocks = before ++ x :: mid ∧ g.Hazard x y ∧
      passCount x.queue before + 1 = n)
    (hcomplete : ∀ before x mid, run.log.blocks = before ++ x :: mid → g.Hazard x y →
      Handover x.queue x.queue.other mid ∨ ∃ n, dependency = some n ∧ passCount x.queue before < n) :
    g.Outstanding run.log.blocks y ↔ ∃ n, dependency = some n ∧ ¬ run.Covers y.queue.other n := by
  have hqueue : ∀ {x : Block}, g.Hazard x y → x.queue = y.queue.other ∧ y.queue = x.queue.other := fun h =>
    ⟨Queue.eq_other_of_ne h.1, Queue.eq_other_of_ne h.1.symm⟩
  have hpass : ∀ {x : Block}, g.Hazard x y → x.source.isPass = true := by
    rintro x ⟨-, p, ⟨i, hi, -⟩, -⟩
    rw [hi]
    rfl
  constructor
  · rintro ⟨before, x, mid, e, hxy, hno⟩
    rw [(hqueue hxy).2] at hno
    rcases hcomplete before x mid e hxy with hover | ⟨n, hn, hlt⟩
    · exact absurd hover hno
    · refine ⟨n, hn, fun hcovers => hno ((handover_iff_covers ht hp e (hpass hxy)).2 ?_)⟩
      rw [← (hqueue hxy).1] at hcovers
      exact hcovers.mono hlt
  · rintro ⟨n, hn, hno⟩
    obtain ⟨before, x, mid, e, hxy, rfl⟩ := hsound n hn
    refine ⟨before, x, mid, e, hxy, fun hover => hno ?_⟩
    rw [(hqueue hxy).2] at hover
    rw [← (hqueue hxy).1]
    exact (handover_iff_covers ht hp e (hpass hxy)).1 hover

end TwoQueueRun

/-! ## Waits that are needed -/

namespace Graph

/-- the queue of a pass waits right before it if and only if something it has a hazard with is outstanding -/
def WaitsWhenDue (g : Graph) (blocks : List Block) : Prop :=
  ∀ before y after, blocks = before ++ y :: after → y.source.isPass = true →
    (EndsInWait y.queue before ↔ g.Outstanding (beforeSyncs before) y)

theorem WaitsWhenDue.append_sync {blocks syncs : List Block} (h : g.WaitsWhenDue blocks) (hs : ∀ b ∈ syncs, b.IsSync) :
    g.WaitsWhenDue (blocks ++ syncs) := by
  intro before y after e hy
  rcases eq_append_or_eq_append e with ⟨after', e', -⟩ | ⟨more, rfl, -⟩
  · exact h before y after' e' hy
  · rw [(hs y (List.mem_append_right more List.mem_cons_self)).source] at hy
    cases hy

theorem WaitsWhenDue.concat {blocks : List Block} {b : Block} (h : g.WaitsWhenDue blocks)
    (hb : EndsInWait b.queue blocks ↔ g.Outstanding (beforeSyncs blocks) b) : g.WaitsWhenDue (blocks ++ [b]) := by
  intro before y after e hy
  rcases eq_append_or_eq_append e with ⟨after', e', -⟩ | ⟨more, hmore, rfl⟩
  · exact h before y after' e' hy
  · obtain ⟨rfl, rfl⟩ := eq_of_singleton_eq_append hmore
    rwa [List.append_nil]

end Graph

namespace TwoQueueRun

variable {run run' : TwoQueueRun} {walked : List (Nat × Pass)}

/-- the run has recorded some passes, with a wait before each that needs one, and no other -/
structure Exact (g : Graph) (walked : List (Nat × Pass)) (run : TwoQueueRun) : Prop extends Inv g walked run where
  genuine : run.accesses.Genuine g.passes run.log.blocks
  prompt : run.Prompt
  paired : Paired run.log.blocks
  rest : beforeSyncs run.log.blocks = run.log.blocks
  due : g.WaitsWhenDue run.log.blocks
  followed : WaitsFollowed run.log.blocks

theorem exact_start (g : Graph) (fences : Fences) : Exact g [] { log := { fences } } where
  toInv := inv_start g fences
  genuine := Accesses.genuine_start g.passes
  prompt := prompt_start fences
  paired := .nil
  rest := rfl
  due := fun before y after h =>
    absurd h.symm (List.append_ne_nil_of_right_ne_nil before (List.cons_ne_nil y after))
  followed := fun _ before z after h =>
    absurd h.symm (List.append_ne_nil_of_right_ne_nil before (List.cons_ne_nil z after))

/-- what a pass depends on is outstanding unless it has been handed over -/
theorem Exact.outstanding_pass (h : run.Exact g walked) {i : Nat} {p : Pass} (hp : g.passes[i]? = some p)
    (commands : List Command) :
    g.Outstanding run.log.blocks ⟨p.kind.queue, .pass i, commands⟩ ↔
      ∃ n, p.dependency run.accesses = some n ∧ ¬ run.Covers p.kind.queue.other n := by
  refine outstanding_iff h.tallied h.prompt (fun n hn => ?_) fun before x mid e hxy => ?_
  · have hne : p.kind.queue.other ≠ p.kind.queue := by cases p.kind.queue <;> exact Queue.noConfusion
    obtain ⟨key, hu, hc | ⟨ha, hr⟩⟩ := p.of_dependency hn
    · obtain ⟨px, ⟨before, x, mid, e, hx, hq, rfl⟩, hux, hax⟩ := h.genuine.change key _ n hc
      exact ⟨before, x, mid, e, ⟨hq ▸ hne, px, hx, .inl ⟨p, ⟨i, rfl, hp⟩, key, hux, hu, .inl hax⟩⟩, hq ▸ rfl⟩
    · obtain ⟨px, ⟨before, x, mid, e, hx, hq, rfl⟩, hux⟩ := h.genuine.read key _ n hr
      exact ⟨before, x, mid, e, ⟨hq ▸ hne, px, hx, .inl ⟨p, ⟨i, rfl, hp⟩, key, hux, hu, .inr ha⟩⟩, hq ▸ rfl⟩
  · obtain ⟨hq, px, hx, ⟨p', ⟨j, hj, hp'⟩, key, hux, hu, hc⟩ | ⟨hy, -⟩⟩ := hxy
    · cases hj
      obtain rfl : p = p' := Option.some.inj (hp.symm.trans hp')
      have hq := Queue.eq_other_of_ne hq
      have hdep : ∀ {n}, ((run.accesses.of key).change = some (x.queue, n) ∨
          p.Alters key ∧ (run.accesses.of key).read.get x.queue = some n) → passCount x.queue before < n →
          ∃ m, p.dependency run.accesses = some m ∧ passCount x.queue before < m := by
        intro n hn hlt
        rw [hq] at hn hlt ⊢
        obtain ⟨m, hm, hle⟩ := p.exists_le_dependency hu hn
        exact ⟨m, hm, hlt.trans_le hle⟩
      rcases h.remember.accounts before x mid px key e hx hux with hover | ⟨n, hn, hlt⟩ | ⟨hna, n, hn, hlt⟩
      · exact .inl hover
      · exact .inr (hdep (.inl hn) hlt)
      · exact .inr (hdep (.inr ⟨hc.resolve_left hna, hn⟩) hlt)
    · cases hy

/-- so is what the exports depend on -/
theorem Exact.outstanding_exports (h : run.Exact g walked) (commands : List Command) :
    g.Outstanding run.log.blocks ⟨.graphics, .exports, commands⟩ ↔
      ∃ n, g.registry.exportDependency run.accesses = some n ∧ ¬ run.Covers .compute n := by
  refine outstanding_iff h.tallied h.prompt (fun n hn => ?_) fun before x mid e hxy => ?_
  · have hne : Queue.compute ≠ .graphics := Queue.noConfusion
    obtain ⟨key, hk, hn⟩ := List.mem_map.1 (mem_of_latest hn)
    obtain ⟨px, ⟨before, x, mid, e, hx, hq, rfl⟩, hux⟩ :
        ∃ px, Numbered g.passes run.log.blocks .compute n px ∧ px.Uses key := by
      rcases Recent.of_dependency hn with hc | ⟨-, hr⟩
      · obtain ⟨px, hnum, hux, -⟩ := h.genuine.change key _ n hc
        exact ⟨px, hnum, hux⟩
      · exact h.genuine.read key _ n hr
    exact ⟨before, x, mid, e, ⟨hq ▸ hne, px, hx, .inr ⟨rfl, key, hk, hux⟩⟩, hq ▸ rfl⟩
  · obtain ⟨hq, px, hx, ⟨p', ⟨j, hj, -⟩, -⟩ | ⟨-, key, hk, hux⟩⟩ := hxy
    · cases hj
    · have hq : x.queue = .compute := Queue.eq_other_of_ne hq
      have hdep : ∀ {n}, ((run.accesses.of key).change = some (x.queue, n) ∨
          (run.accesses.of key).read.get x.queue = some n) → passCount x.queue before < n →
          ∃ m, g.registry.exportDependency run.accesses = some m ∧ passCount x.queue before < m := by
        intro n hn hlt
        rw [hq] at hn hlt ⊢
        obtain ⟨m, hm, hle⟩ := exists_le_exportDependency hk hn
        exact ⟨m, hm, hlt.trans_le hle⟩
      rcases h.remember.accounts before x mid px key e hx hux with hover | ⟨n, hn, hlt⟩ | ⟨-, n, hn, hlt⟩
      · exact .inl hover
      · exact .inr (hdep (.inl hn) hlt)
      · exact .inr (hdep (.inr hn) hlt)

/-- what waiting before a block leaves: a wait at the end, if and only if something was outstanding -/
structure Waited (g : Graph) (walked : List (Nat × Pass)) (run : TwoQueueRun) (y : Block) (run' : TwoQueueRun) : Prop
    extends Inv g walked run' where
  genuine : run'.accesses.Genuine g.passes run'.log.blocks
  prompt : run'.Prompt
  paired : Paired run'.log.blocks
  due : g.WaitsWhenDue run'.log.blocks
  followed : WaitsFollowed run'.log.blocks
  before : beforeSyncs run'.log.blocks = run.log.blocks
  ends : EndsInWait y.queue run'.log.blocks ↔ g.Outstanding run.log.blocks y
  own : ∀ q, EndsInWait q run'.log.blocks → q = y.queue

/-- **A queue waits if and only if something is outstanding.** -/
theorem Exact.wait (h : run.Exact g walked) {y : Block} {dependency : Option Nat}
    (hle : ∀ n, dependency = some n → n ≤ passCount y.queue.other run.log.blocks)
    (hdue : g.Outstanding run.log.blocks y ↔ ∃ n, dependency = some n ∧ ¬ run.Covers y.queue.other n)
    (hw : run.waitIfNeeded (.both true) y.queue dependency = .ok run') : Waited g walked run y run' := by
  obtain ⟨ht, he, -⟩ := waitIfNeeded_spec h.tallied hle hw
  have hinv := h.toInv.extends ht he
  obtain ⟨⟨syncs, e, hs⟩, ha⟩ := he
  have hgenuine : run'.accesses.Genuine g.passes run'.log.blocks := by
    rw [ha, e]
    exact h.genuine.append syncs
  have hwaits : g.WaitsWhenDue run'.log.blocks := e ▸ h.due.append_sync hs
  rcases waitIfNeeded_cases h.tallied h.prompt hw with ⟨rfl, hcovers⟩ | ⟨rfl, -, hn⟩
  · refine ⟨hinv, hgenuine, h.prompt, h.paired, hwaits, h.followed, h.rest, ?_,
      fun _ hends => absurd hends (not_endsInWait h.rest)⟩
    rw [hdue]
    exact iff_of_false (not_endsInWait h.rest) fun ⟨n, hn, hno⟩ => hno (hcovers n hn)
  · have hends : ∀ {q}, EndsInWait q (run.handOver y.queue.other).log.blocks ↔ q = y.queue := fun {q} =>
      endsInWait_handover.trans (by rw [Queue.other_other])
    refine ⟨hinv, hgenuine, h.prompt.handOver h.tallied _, h.paired.append (.handover _ _ .nil), hwaits,
      h.followed.handover h.rest _ _, (beforeSyncs_handover _ _ _).trans h.rest, ?_, fun q => hends.1⟩
    rw [hdue]
    exact iff_of_true (hends.2 rfl) hn

/-- **One pass keeps the waits exact.** -/
theorem Exact.step {i : Nat} {p : Pass} (h : run.Exact g walked) (hp : g.passes[i]? = some p)
    (hs : run.step (.both true) g.settings.events i p = .ok run') : run'.Exact g (walked ++ [(i, p)]) := by
  have hinv := h.toInv.step hp hs
  obtain ⟨run₁, hwait, hs⟩ := bind_eq_ok.1 hs
  cases hs
  let commands := Action.record ((PerQueue.both true).get p.kind.queue) run₁.log.fences (p.actions g.settings.events)
  have hw : Waited g walked run ⟨p.kind.queue, .pass i, commands⟩ run₁ :=
    h.wait h.remember.le_of_dependency (h.outstanding_pass hp commands) hwait
  refine ⟨hinv, ?_, hw.prompt.pass _ _ _ _, hw.paired.append (.other Source.noConfusion .nil), beforeSyncs_pass rfl _,
    hw.due.concat ?_, hw.followed.concat fun q hends => ⟨(hw.own q hends).symm, rfl⟩⟩
  · rw [hw.tallied.recorded]
    exact hw.genuine.pass hp commands
  · rw [hw.before]
    exact hw.ends

end TwoQueueRun

namespace Graph

/-- among the blocks of passes there are signals and waits where they are needed, and nowhere else -/
structure WaitsExactly (g : Graph) (blocks : List Block) : Prop where
  /-- the queue of a pass waits right before it if and only if something it has a hazard with is outstanding -/
  passes : g.WaitsWhenDue blocks
  /-- the graphics queue waits at the end if and only if something the exports have a hazard with is outstanding -/
  exports : EndsInWait .graphics blocks ↔ g.Outstanding (beforeSyncs blocks) ⟨.graphics, .exports, []⟩
  /-- a queue waits only right before a pass it runs, or at the end, and then it is the graphics queue -/
  followed : WaitsFollowed blocks ∧ ∀ q, EndsInWait q blocks → q = .graphics
  /-- signals and waits are the only blocks that are not of passes -/
  syncs : ∀ b ∈ blocks, b.source = .sync → b.IsSync
  /-- a wait comes right after the signal for its value, and this is the last signal of the other queue -/
  latest : ∀ before q value satisfied after, blocks = before ++ .ofWait q q.other value satisfied :: after →
    [.ofSignal q value] <:+ before ∧ (signalsOn q before).getLast? = some value
  /-- the other queue waits for a signal right after it -/
  awaited : ∀ before q value after, blocks = before ++ .ofSignal q value :: after →
    ∃ satisfied, [.ofWait q q.other value satisfied] <+: after
  /-- and waits for these values only, once for each -/
  once : ∀ q, waitsOf q.other blocks = signalsOn q blocks
  growing : ∀ q, (signalsOn q blocks).Pairwise (· < ·) ∧ (waitsOf q blocks).Pairwise (· < ·)

end Graph

/-- **A run that has waited for what its exports need has waited exactly.** -/
theorem TwoQueueRun.Waited.waitsExactly {walked : List (Nat × Pass)} {run run' : TwoQueueRun}
    (h : Waited g walked run ⟨.graphics, .exports, []⟩ run') : g.WaitsExactly run'.log.blocks := by
  refine ⟨h.due, ?_, ⟨h.followed, h.own⟩, h.syncs, fun before q value satisfied after e => ?_,
    fun before q value after e => ⟨true, h.paired.of_signal e⟩, h.paired.waitsOf_eq, fun q => ⟨h.tallied.growing q, ?_⟩⟩
  · rw [h.before]
    exact h.ends
  · obtain ⟨hsignal, -⟩ := h.paired.of_wait e
    refine ⟨hsignal, ?_⟩
    obtain ⟨earlier, rfl⟩ := hsignal
    rw [signalsOn_append, signalsOn_ofSignal, if_pos rfl, List.getLast?_concat]
  · have hwaits := h.paired.waitsOf_eq q.other
    rw [Queue.other_other] at hwaits
    rw [hwaits]
    exact h.tallied.growing q.other

namespace Graph

/-- what a run has recorded when it comes to its exports, and when it has waited for what they need -/
theorem executeAsync_waited {fences : Fences} {log : Log} (h : g.executeAsync (.both true) fences = .ok (g', log)) :
    ∃ (run run' : TwoQueueRun) (batch : Batch), run.Exact g g.walk ∧
      TwoQueueRun.Waited g g.walk run ⟨.graphics, .exports, []⟩ run' ∧ log.blocks = run'.log.blocks ++ exportBlocks batch := by
  obtain ⟨run, run', hrun, hwait, hexports, -⟩ := executeAsync_stages h
  have hexact : run.Exact g g.walk :=
    TwoQueueRun.foldlM_induction (TwoQueueRun.exact_start g fences)
      (fun _ hx _ _ _ hkept hstep => hkept.step (of_mem_walk hx).1 hstep) hrun
  obtain ⟨batch, -, e⟩ := Log.recordExports_blocks hexports
  exact ⟨run, run', batch, hexact,
    hexact.wait hexact.remember.le_of_exportDependency (hexact.outstanding_exports []) hwait, e⟩

/-- **Dual-queue synchronisation is exact.** A run records its passes, each on its own queue, and then the exports. A queue
waits when something is outstanding and only then, for a signal the other queue makes just before; each signal is waited
for once. -/
theorem executeAsync_exact {fences : Fences} {log : Log} (h : g.executeAsync (.both true) fences = .ok (g', log)) :
    ∃ blocks batch, log.blocks = blocks ++ exportBlocks batch ∧
      Recorded g.settings.events (fun p => p.kind.queue) g.walk blocks ∧ g.WaitsExactly blocks := by
  obtain ⟨run, run', batch, -, hw, e⟩ := executeAsync_waited h
  exact ⟨run'.log.blocks, batch, e, hw.recorded, hw.waitsExactly⟩

/-- in the sample frame the draw waits for the compute pass, and nothing is outstanding when it comes to the exports -/
theorem executeAsync_exact_sample :
    ∃ g' stats s', sample.compile CountingDevice.device {} = .ok (g', .ok stats, s') ∧
      ∃ g'' log, g'.executeAsync (.both true) (.both .new) = .ok (g'', log) ∧
        ∃ blocks batch, log.blocks = blocks ++ exportBlocks batch ∧
          Recorded g'.settings.events (fun p => p.kind.queue) g'.walk blocks ∧ g'.WaitsExactly blocks := by
  obtain ⟨g', stats, s', hc, -, -, -, ⟨g'', log⟩, hrun⟩ := sample_compiles
  exact ⟨g', stats, s', hc, g'', log, hrun, executeAsync_exact hrun⟩

end Graph

end FrameGraph
