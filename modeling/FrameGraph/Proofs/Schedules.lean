/-
A frame on two queues: whatever order the queues run in, the barriers replay.

A schedule takes the moments of both streams, each stream in order, and lets a wait pass only once its fence has been
signaled with the value or a higher one (`Graph.Schedule`). The log is one schedule, and there the barriers replay as they
do on one queue. Any other schedule is reached from it by putting off one moment after another: of the moments the other
queue runs before it, it is independent of each, because otherwise that one would still be waiting.

- `Fenced.reorder`: where moments on different queues are independent or have a wait in between, any order replays.
- `fenced_of_ordered`: what a run records is such a list.
- `Graph.executeAsync_schedules`: in every schedule the batches are sound, callbacks find what their passes ask for, and
  exported resources end in their export states.
-/
import FrameGraph.Proofs.Independence
import FrameGraph.Proofs.TwoQueues

namespace FrameGraph

variable {g : Graph} {w w' : World}

/-! ## Schedules -/

/-- the moments of one queue, in order -/
def onQueue (q : Queue) (ms : List (Queue × Moment)) : List Moment := (ms.filter fun x => decide (x.1 = q)).map Prod.snd

/-- once some moments are done, others may follow in this order: a wait passes when the fence has been signaled with its
value or a higher one -/
def Allowed : List (Queue × Moment) → List (Queue × Moment) → Prop
  | _, [] => True
  | done, x :: ms =>
    (∀ f value satisfied, x.2.command? = some (.wait f value satisfied) →
      ∃ y ∈ done, ∃ value', y.2.command? = some (.signal f value') ∧ value ≤ value') ∧ Allowed (done ++ [x]) ms

/-- an order in which the two queues may run what is recorded -/
structure Graph.Schedule (g : Graph) (log : Log) (ms : List (Queue × Moment)) : Prop where
  /-- each queue runs its blocks in order -/
  streams : ∀ q, onQueue q ms = (log.blocks.filter fun b => decide (b.queue = q)).flatMap (Block.moments g)
  allowed : Allowed [] ms

theorem Allowed.mono {done done' ms : List (Queue × Moment)} (h : Allowed done ms) (hd : done ⊆ done') :
    Allowed done' ms := by
  induction ms generalizing done done' with
  | nil => trivial
  | cons x ms ih =>
    refine ⟨fun f value satisfied hx => ?_, ih h.2 (List.append_subset.2 ⟨?_, List.subset_append_right _ _⟩)⟩
    · obtain ⟨y, hy, hsignal⟩ := h.1 f value satisfied hx
      exact ⟨y, hd hy, hsignal⟩
    · exact List.Subset.trans hd (List.subset_append_left _ _)

theorem allowed_append {done ms ns : List (Queue × Moment)} :
    Allowed done (ms ++ ns) ↔ Allowed done ms ∧ Allowed (done ++ ms) ns := by
  induction ms generalizing done with
  | nil => simp [Allowed]
  | cons x ms ih => simp only [List.cons_append, Allowed, ih, and_assoc, List.append_assoc, List.nil_append]

/-- a moment done early allows no less -/
theorem Allowed.advance {done before after : List (Queue × Moment)} {x : Queue × Moment}
    (h : Allowed done (before ++ x :: after)) : Allowed (done ++ [x]) (before ++ after) := by
  obtain ⟨hbefore, -, hafter⟩ := allowed_append.1 h
  refine allowed_append.2 ⟨hbefore.mono (List.subset_append_left _ _), hafter.mono fun y hy => ?_⟩
  simp only [List.mem_append, List.mem_singleton] at hy ⊢
  tauto

theorem onQueue_append (q : Queue) (ms ns : List (Queue × Moment)) :
    onQueue q (ms ++ ns) = onQueue q ms ++ onQueue q ns := by
  rw [onQueue, List.filter_append, List.map_append]
  rfl

theorem onQueue_cons (q : Queue) (x : Queue × Moment) (ms : List (Queue × Moment)) :
    onQueue q (x :: ms) = if x.1 = q then x.2 :: onQueue q ms else onQueue q ms := by
  rw [onQueue, List.filter_cons]
  by_cases h : x.1 = q <;> simp [h, onQueue]

theorem mem_onQueue {q : Queue} {ms : List (Queue × Moment)} {m : Moment} : m ∈ onQueue q ms ↔ (q, m) ∈ ms := by
  simp only [onQueue, List.mem_map, List.mem_filter, decide_eq_true_eq]
  constructor
  · rintro ⟨x, ⟨hx, rfl⟩, rfl⟩
    exact hx
  · exact fun h => ⟨(q, m), ⟨h, rfl⟩, rfl⟩

/-- a moment of a queue stands somewhere among all moments -/
theorem exists_of_onQueue {q : Queue} {ms : List (Queue × Moment)} {m : Moment} {l l' : List Moment}
    (h : onQueue q ms = l ++ m :: l') :
    ∃ before after, ms = before ++ (q, m) :: after ∧ onQueue q before = l ∧ onQueue q after = l' := by
  obtain ⟨xs, ys, hxs, rfl, hys⟩ := List.map_eq_append_iff.1 h
  obtain ⟨x, zs, rfl, rfl, rfl⟩ := List.map_eq_cons_iff.1 hys
  obtain ⟨before, rest, rfl, rfl, hrest⟩ := List.filter_eq_append_iff.1 hxs
  obtain ⟨skipped, after, rfl, hskipped, hx, rfl⟩ := List.filter_eq_cons_iff.1 hrest
  refine ⟨before ++ skipped, after, ?_, ?_, rfl⟩
  · rw [← of_decide_eq_true hx, List.append_assoc]
  · rw [onQueue, List.filter_append, List.filter_eq_nil_iff.2 hskipped, List.append_nil]

/-- the commands of a queue in a schedule are its stream -/
theorem Graph.Schedule.commands {log : Log} {ms : List (Queue × Moment)} (h : g.Schedule log ms) (q : Queue) :
    (onQueue q ms).filterMap Moment.command? = log.stream q := by
  rw [h.streams, List.filterMap_flatMap, Log.stream]
  exact List.flatMap_congr fun b _ => moments_commands g b

/-! ## Any order will do -/

/-- moments on different queues are independent, or in between the queue of the second one waits for the queue of the first
one, for a value the first one's queue has not signaled before -/
structure Fenced (g : Graph) (ms : List (Queue × Moment)) : Prop where
  own : ∀ x ∈ ms, ∀ f value, x.2.command? = some (.signal f value) → x.1 = f
  between : ∀ before x mid y after, ms = before ++ x :: (mid ++ y :: after) → x.1 ≠ y.1 → ¬ x.2.Independent g y.2 →
    ∃ value satisfied, (y.1, .own (.wait x.1 value satisfied)) ∈ mid ∧
      ∀ z ∈ before, ∀ value', z.2.command? = some (.signal x.1 value') → value' < value

/-- **Whatever a schedule runs before the next moment is independent of it.** -/
theorem Fenced.independent {done rest before after : List (Queue × Moment)} {x : Queue × Moment}
    (h : Fenced g (done ++ x :: rest)) (hs : ∀ q, onQueue q (before ++ after) = onQueue q rest)
    (hq : ∀ y ∈ before, y.1 ≠ x.1)
    (ha : Allowed done before) :
    ∀ m ∈ before.map Prod.snd, x.2.Independent g m := by
  intro m hm
  obtain ⟨y, hy, rfl⟩ := List.mem_map.1 hm
  obtain ⟨earlier, later, rfl⟩ := List.append_of_mem hy
  by_contra hdep
  -- in the log the moment comes after `x`, and what its queue runs between the two it has run here too
  have hrest : onQueue y.1 rest = onQueue y.1 earlier ++ y.2 :: (onQueue y.1 later ++ onQueue y.1 after) := by
    rw [← hs, List.append_assoc, List.cons_append, onQueue_append, onQueue_cons, if_pos rfl, onQueue_append]
  obtain ⟨mid, post, rfl, hmid, -⟩ := exists_of_onQueue hrest
  obtain ⟨value, satisfied, hwait, hfresh⟩ := h.between done x mid y post rfl (hq y hy).symm hdep
  rw [← mem_onQueue, hmid, mem_onQueue] at hwait
  obtain ⟨earlier', later', rfl⟩ := List.append_of_mem hwait
  rw [List.append_assoc] at ha
  obtain ⟨z, hz, value', hsignal, hle⟩ := (allowed_append.1 ha).2.1 x.1 value satisfied rfl
  rcases List.mem_append.1 hz with hz | hz
  · exact absurd (hfresh z hz value' hsignal) (Nat.not_lt.2 hle)
  · -- the signal would be on the queue of `x`, and nothing of that queue has been run
    have hzmem : z ∈ earlier' ++ (y.1, .own (.wait x.1 value satisfied)) :: later' ++ y :: later :=
      List.mem_append_left _ (List.mem_append_left _ hz)
    have hz' : z.2 ∈ onQueue z.1 (mid ++ (y.1, y.2) :: post) := by
      rw [← hs, mem_onQueue]
      exact List.mem_append_left _ hzmem
    refine hq z hzmem (h.own z ?_ x.1 value' hsignal)
    exact List.mem_append_right _ (List.mem_cons_of_mem _ (mem_onQueue.1 hz'))

/-- **Any order the waits allow replays if the given one does,** and leads to the same world. -/
theorem Fenced.reorder {done rest ms : List (Queue × Moment)} (h : Fenced g (done ++ rest))
    (hs : ∀ q, onQueue q ms = onQueue q rest)
    (ha : Allowed done ms) (hr : Replayed g w (rest.map Prod.snd) w') : Replayed g w (ms.map Prod.snd) w' := by
  induction rest generalizing done ms w with
  | nil =>
    have hnil : ms = [] := by
      refine List.eq_nil_iff_forall_not_mem.2 fun x hx => ?_
      have hmem := mem_onQueue.2 (show (x.1, x.2) ∈ ms from hx)
      rw [hs] at hmem
      cases hmem
    rwa [hnil]
  | cons x rest ih =>
    have hself : onQueue x.1 ms = [] ++ x.2 :: onQueue x.1 rest := by
      rw [hs, onQueue_cons, if_pos rfl]
      rfl
    obtain ⟨before, after, rfl, hbefore, hafter⟩ := exists_of_onQueue hself
    have hq : ∀ y ∈ before, y.1 ≠ x.1 := by
      intro y hy e
      have hmem := mem_onQueue.2 (show (x.1, y.2) ∈ before from e ▸ hy)
      rw [hbefore] at hmem
      cases hmem
    have hs' : ∀ q, onQueue q (before ++ after) = onQueue q rest := by
      intro q
      have hms := hs q
      rw [onQueue_append, onQueue_cons, onQueue_cons] at hms
      rw [onQueue_append]
      by_cases hx : x.1 = q
      · rw [← hx, hbefore, hafter]
        rfl
      · rwa [if_neg hx, if_neg hx] at hms
    have hrest : Replayed g w (x.2 :: (before.map Prod.snd ++ after.map Prod.snd)) w' := by
      rw [← List.map_append]
      refine ⟨hr.1, ?_⟩
      rw [List.append_cons] at h
      exact ih h hs' ha.advance hr.2
    rw [List.map_append, List.map_cons]
    exact hrest.postpone (h.independent hs' hq (allowed_append.1 ha).1)

/-! ## What is recorded on two queues -/

/-- the callback of a pass asks for nothing but debug events the next time it runs -/
def Pass.Quiet (p : Pass) : Prop :=
  ∀ a ∈ p.callback (p.runs + 1), (∃ name, a = .beginEvent name) ∨ a = .endEvent

/-- the moments of a block, on its queue -/
def Block.tagged (g : Graph) (b : Block) : List (Queue × Moment) := (b.moments g).map (b.queue, ·)

/-- the command is a signal or a wait -/
def Command.isSync : Command → Bool
  | signal _ _ => true
  | wait _ _ _ => true
  | _ => false

theorem Action.exists_of_mem_record {syncs : Bool} {fences : Fences} {actions : List Action} {c : Command}
    (h : c ∈ Action.record syncs fences actions) : ∃ a ∈ actions, ∃ fences, a.command? syncs fences = some c := by
  induction actions generalizing fences with
  | nil => cases h
  | cons a actions ih =>
    rcases List.mem_append.1 h with h | h
    · exact ⟨a, List.mem_cons_self, fences, Option.mem_toList.1 h⟩
    · obtain ⟨a', ha', hc⟩ := ih h
      exact ⟨a', List.mem_cons_of_mem _ ha', hc⟩

/-- a pass asks for the two ends of its scope and for its barriers, and for what its callback asks for -/
theorem Pass.of_mem_actions {p : Pass} {events : Bool} {a : Action} (ha : a ∈ p.actions events) :
    (a = .beginEvent p.name ∨ a = .barriers p.plan.barriers ∨ a = .endEvent) ∨ a ∈ p.callback (p.runs + 1) := by
  simp only [Pass.actions, List.mem_append] at ha
  rcases ha with ((ha | ha) | ha) | ha
  · split at ha
    · exact .inl (.inl (List.mem_singleton.1 ha))
    · cases ha
  · split at ha
    · exact .inl (.inr (.inl (List.mem_singleton.1 ha)))
    · cases ha
  · exact .inr ha
  · split at ha
    · exact .inl (.inr (.inr (List.mem_singleton.1 ha)))
    · cases ha

/-- a pass with a quiet callback neither signals nor waits -/
theorem Pass.Quiet.isSync_eq_false {p : Pass} (h : p.Quiet) {events syncs : Bool} {fences : Fences} {c : Command}
    (hc : c ∈ Action.record syncs fences (p.actions events)) : c.isSync = false := by
  obtain ⟨a, ha, fences, hac⟩ := Action.exists_of_mem_record hc
  have hkind : (∃ name, a = .beginEvent name) ∨ a = .endEvent ∨ ∃ batch, a = .barriers batch := by
    rcases Pass.of_mem_actions ha with (ha | ha | ha) | ha
    · exact .inl ⟨_, ha⟩
    · exact .inr (.inr ⟨_, ha⟩)
    · exact .inr (.inl ha)
    · exact (h a ha).imp_right .inl
  rcases hkind with ⟨name, rfl⟩ | rfl | ⟨batch, rfl⟩
  all_goals
    cases hac
    rfl

theorem Recorded.of_mem {events : Bool} {on : Pass → Queue} {walk : List (Nat × Pass)} {blocks : List Block} {b : Block}
    (h : Recorded events on walk blocks) (hb : b ∈ blocks) :
    (∃ x ∈ walk, b.OfPass events (on x.2) x) ∨ b.source = .sync := by
  induction h with
  | nil => cases hb
  | pass hof _ ih =>
    rcases List.mem_cons.1 hb with rfl | hb
    · exact .inl ⟨_, List.mem_cons_self, hof⟩
    · exact (ih hb).imp_left fun ⟨x, hx, hof⟩ => ⟨x, List.mem_cons_of_mem _ hx, hof⟩
  | sync hs _ _ ih =>
    rcases List.mem_cons.1 hb with rfl | hb
    · exact .inr hs
    · exact ih hb

/-- the commands of the moments of a block are its commands -/
theorem mem_commands_of_mem_moments {b : Block} {m : Moment} {c : Command} (hm : m ∈ b.moments g)
    (hc : m.command? = some c) : c ∈ b.commands := by
  rw [← moments_commands g b]
  exact List.mem_filterMap.2 ⟨m, hm, hc⟩

/-- a usage of a resource of a kind is a usage -/
theorem Pass.uses_of_usesOf {p : Pass} {key : Key} (h : p.usesOf key.kind key.index ≠ []) : p.Uses key := by
  obtain ⟨u, hu⟩ := List.exists_mem_of_ne_nil _ h
  obtain ⟨hu, hi⟩ := List.mem_filter.1 hu
  obtain ⟨v, hv, hk⟩ := List.mem_filterMap.1 hu
  refine ⟨v, hv, ?_⟩
  obtain ⟨kind, index⟩ := key
  obtain ⟨k, u'⟩ := v
  cases k <;> cases kind <;> simp [Usage.as?] at hk <;> subst hk <;> simp_all [Usage.key]

theorem Pass.mem_transitioned {k : ResourceKind} {p : Pass} {b : Barrier k} (hb : b ∈ p.plan.barriers.get k) :
    ⟨k, b.resource⟩ ∈ p.transitioned := by
  cases k
  · exact List.mem_append_left _ (List.mem_map.2 ⟨b, hb, rfl⟩)
  · exact List.mem_append_right _ (List.mem_map.2 ⟨b, hb, rfl⟩)

/-- what a moment of a pass shifts the pass alters, and what it needs the pass uses -/
theorem Block.OfPass.of_needs {x : Nat × Pass} {queue : Queue} {b : Block} {m : Moment} {key : Key}
    (hb : b.OfPass g.settings.events queue x) (hx : g.passes[x.1]? = some x.2)
    (hused : ∀ k, ∀ b ∈ x.2.plan.barriers.get k, x.2.usesOf k b.resource ≠ []) (hm : m ∈ b.moments g)
    (hn : m.Needs g key) : x.2.Uses key ∧ (m.Shifts key → x.2.Alters key) := by
  have hshift : m.Shifts key → x.2.Uses key ∧ x.2.Alters key := by
    rintro ⟨batch, hbatch, c, hc, hci⟩
    have hmem := List.mem_filterMap.2 ⟨m, hm, hbatch⟩
    rw [hb.batches hx] at hmem
    obtain rfl : batch = x.2.plan.barriers := by
      split at hmem
      · exact List.mem_singleton.1 hmem
      · cases hmem
    have htransitioned := Pass.mem_transitioned hc
    rw [hci] at htransitioned
    exact ⟨Pass.uses_of_usesOf (hci ▸ hused _ c hc), .inr htransitioned⟩
  refine ⟨?_, fun h => (hshift h).2⟩
  rcases hn with hs | ⟨i, p, rfl, hp, hu⟩
  · exact (hshift hs).1
  · obtain ⟨post, e, -, hpost⟩ := hb.moments hx
    have hmem := List.mem_filterMap.2 ⟨_, hm, show (Moment.call i).call? = some i from rfl⟩
    rw [e, List.filterMap_append, own_calls, List.filterMap_cons, hpost] at hmem
    obtain rfl : i = x.1 := List.mem_singleton.1 hmem
    obtain rfl : x.2 = p := Option.some.inj (hx.symm.trans hp)
    exact Pass.uses_of_usesOf hu

/-- an element of a list made block by block comes from one of the blocks -/
theorem exists_of_flatMap {α β : Type} {f : α → List β} {l : List α} {done rest : List β} {a : β}
    (h : l.flatMap f = done ++ a :: rest) :
    ∃ before x after pre post, l = before ++ x :: after ∧ f x = pre ++ a :: post ∧ done = before.flatMap f ++ pre ∧
      rest = post ++ after.flatMap f := by
  induction l generalizing done with
  | nil => exact absurd h.symm (List.append_ne_nil_of_right_ne_nil _ (List.cons_ne_nil a rest))
  | cons x l ih =>
    rw [List.flatMap_cons] at h
    rcases List.append_eq_append_iff.1 h with ⟨c, rfl, hc⟩ | ⟨c, hx, hc⟩
    · obtain ⟨before, y, after, pre, post, rfl, hy, rfl, hrest⟩ := ih hc
      exact ⟨x :: before, y, after, pre, post, rfl, hy, (List.append_assoc _ _ _).symm, hrest⟩
    · cases c with
      | nil =>
        obtain ⟨before, y, after, pre, post, rfl, hy, hdone, hrest⟩ := @ih [] hc.symm
        refine ⟨x :: before, y, after, pre, post, rfl, hy, ?_, hrest⟩
        rw [List.append_nil] at hx
        rw [List.flatMap_cons, List.append_assoc, ← hdone, List.append_nil, hx]
      | cons d c =>
        obtain ⟨rfl, rfl⟩ := List.cons.inj hc
        exact ⟨[], x, l, done, c, rfl, hx, rfl, rfl⟩

/-- two moments on different queues belong to two blocks in the same order; the blocks between them are between the moments,
and what was before them belongs to the first block or one before it -/
theorem exists_blocks {blocks : List Block} {done mid post : List (Queue × Moment)} {a t : Queue × Moment}
    (e : blocks.flatMap (Block.tagged g) = done ++ a :: (mid ++ t :: post)) (hq : a.1 ≠ t.1) :
    ∃ before x between y after, blocks = before ++ x :: between ++ y :: after ∧ a.1 = x.queue ∧ a.2 ∈ x.moments g ∧
      t.1 = y.queue ∧ t.2 ∈ y.moments g ∧ between.flatMap (Block.tagged g) ⊆ mid ∧
      ∀ z ∈ done, ∃ b ∈ before ++ [x], z.2 ∈ b.moments g := by
  have htagged : ∀ (b : Block), ∀ z ∈ b.tagged g, z.1 = b.queue ∧ z.2 ∈ b.moments g := by
    intro b z hz
    obtain ⟨m, hm, rfl⟩ := List.mem_map.1 hz
    exact ⟨rfl, hm⟩
  obtain ⟨before, x, rest, pre, inside, rfl, hx, rfl, hrest⟩ := exists_of_flatMap e
  have hxs : ∀ z ∈ pre ++ a :: inside, z.1 = x.queue ∧ z.2 ∈ x.moments g := fun z hz => htagged x z (hx ▸ hz)
  obtain ⟨haq, ham⟩ := hxs a (List.mem_append_right _ List.mem_cons_self)
  -- `t` is on another queue, so it is in a later block
  obtain ⟨c, rfl, hc⟩ : ∃ c, mid = inside ++ c ∧ rest.flatMap (Block.tagged g) = c ++ t :: post := by
    rcases List.append_eq_append_iff.1 hrest with ⟨c, rfl, hc⟩ | h
    · cases c with
      | nil => exact ⟨[], (List.append_nil _).symm.trans (List.append_nil _).symm, hc.symm⟩
      | cons d c =>
        obtain ⟨rfl, -⟩ := List.cons.inj hc
        have ht : t ∈ pre ++ a :: (mid ++ t :: c) := by simp
        exact absurd (haq.trans (hxs t ht).1.symm) hq
    · exact h
  obtain ⟨between, y, after, pre', inside', rfl, hy, rfl, -⟩ := exists_of_flatMap hc
  obtain ⟨htq, htm⟩ := htagged y t (hy ▸ List.mem_append_right _ List.mem_cons_self)
  refine ⟨before, x, between, y, after, ?_, haq, ham, htq, htm, fun z hz => ?_, fun z hz => ?_⟩
  · rw [List.append_assoc, List.cons_append]
  · exact List.mem_append_right _ (List.mem_append_left _ hz)
  · rcases List.mem_append.1 hz with hz | hz
    · obtain ⟨b, hb, hz⟩ := List.mem_flatMap.1 hz
      exact ⟨b, List.mem_append_left _ hb, (htagged b z hz).2⟩
    · exact ⟨x, List.mem_append_right _ List.mem_cons_self, (hxs z (List.mem_append_left _ hz)).2⟩

/-- the blocks of a run of a planned graph whose callbacks are quiet, and the batch of its exports -/
structure Graph.Traced (g : Graph) (blocks : List Block) (batch : Batch) : Prop where
  recorded : Recorded g.settings.events (fun p => p.kind.queue) g.walk blocks
  syncs : ∀ b ∈ blocks, b.source = .sync → b.IsSync
  awaited : ∀ before q value satisfied after, blocks = before ++ .ofWait q q.other value satisfied :: after →
    .ofSignal q value ∈ before
  growing : ∀ q, (signalsOn q (blocks ++ exportBlocks batch)).Pairwise (· < ·)
  ordered : g.Ordered (blocks ++ exportBlocks batch)
  quiet : ∀ x ∈ g.walk, x.2.Quiet
  used : ∀ x ∈ g.walk, ∀ k, ∀ b ∈ x.2.plan.barriers.get k, x.2.usesOf k b.resource ≠ []
  exported : ∀ k, ∀ b ∈ batch.get k, ⟨k, b.resource⟩ ∈ g.registry.exportedKeys

theorem eq_of_mem_exportBlocks {batch : Batch} {b : Block} (hb : b ∈ exportBlocks batch) :
    b = ⟨.graphics, .exports, [.barriers batch]⟩ := by
  unfold exportBlocks at hb
  split at hb
  · exact List.mem_singleton.1 hb
  · cases hb

/-- nothing comes after the exports -/
theorem mem_of_exportBlocks {batch : Batch} {blocks before after : List Block} {x y : Block}
    (h : blocks ++ exportBlocks batch = before ++ y :: after) (hx : x ∈ before) : x ∈ blocks := by
  rcases eq_append_or_eq_append h with ⟨after', rfl, -⟩ | ⟨more, hmore, rfl⟩
  · exact List.mem_append_left _ hx
  · unfold exportBlocks at hmore
    split at hmore
    · obtain ⟨rfl, -⟩ := eq_of_singleton_eq_append hmore
      rwa [List.append_nil] at hx
    · exact absurd hmore.symm (List.append_ne_nil_of_right_ne_nil _ (List.cons_ne_nil y after))

namespace Graph.Traced

variable {blocks : List Block} {batch : Batch} {b x y : Block} {m m' : Moment} {key : Key}

/-- every signal and every wait is one of the run -/
theorem isSync (h : g.Traced blocks batch) (hb : b ∈ blocks ++ exportBlocks batch) {c : Command} (hc : c ∈ b.commands)
    (hs : c.isSync = true) : b.IsSync := by
  rcases List.mem_append.1 hb with hb | hb
  · rcases h.recorded.of_mem hb with ⟨x, hx, syncs, fences, rfl⟩ | hsource
    · exact absurd hs (Bool.eq_false_iff.1 ((h.quiet x hx).isSync_eq_false hc))
    · exact h.syncs b hb hsource
  · rw [eq_of_mem_exportBlocks hb] at hc
    rw [List.mem_singleton.1 hc] at hs
    cases hs

theorem eq_ofSignal (h : g.Traced blocks batch) (hb : b ∈ blocks ++ exportBlocks batch) {f : Queue} {value : Nat}
    (hc : .signal f value ∈ b.commands) : b = .ofSignal f value := by
  rcases h.isSync hb hc rfl with ⟨q, value', rfl⟩ | ⟨q, value', satisfied, rfl⟩
  · cases List.mem_singleton.1 hc
    rfl
  · cases List.mem_singleton.1 hc

theorem eq_ofWait (h : g.Traced blocks batch) (hb : b ∈ blocks ++ exportBlocks batch) {f : Queue} {value : Nat}
    {satisfied : Bool} (hc : .wait f value satisfied ∈ b.commands) : b = .ofWait f f.other value satisfied := by
  rcases h.isSync hb hc rfl with ⟨q, value', rfl⟩ | ⟨q, value', satisfied', rfl⟩
  · cases List.mem_singleton.1 hc
  · cases List.mem_singleton.1 hc
    rfl

/-- a moment that needs a resource is one of a pass that uses it, and if it shifts it the pass alters it -/
theorem of_needs (h : g.Traced blocks batch) (hb : b ∈ blocks) (hm : m ∈ b.moments g) (hn : m.Needs g key) :
    ∃ p, b.IsOf g.passes p ∧ p.Uses key ∧ (m.Shifts key → p.Alters key) := by
  rcases h.recorded.of_mem hb with ⟨x, hx, hof⟩ | hs
  · have hpass := (of_mem_walk hx).1
    refine ⟨x.2, ⟨x.1, ?_, hpass⟩, hof.of_needs hpass (h.used x hx) hm hn⟩
    obtain ⟨syncs, fences, rfl⟩ := hof
    rfl
  · have hidle : ∀ m ∈ b.moments g, m.batch? = none ∧ m.call? = none := by
      rcases h.syncs b hb hs with ⟨q, value', rfl⟩ | ⟨q, value', satisfied, rfl⟩
      all_goals
        intro m hm
        rw [List.mem_singleton.1 hm]
        exact ⟨rfl, rfl⟩
    obtain ⟨h1, h2⟩ := hidle m hm
    rcases hn with ⟨batch', hbatch, -⟩ | ⟨i, -, rfl, -⟩
    · rw [h1] at hbatch
      cases hbatch
    · cases h2

/-- a moment of the exports needs exported resources -/
theorem of_needs_exports (h : g.Traced blocks batch) (hb : b ∈ exportBlocks batch) (hm : m ∈ b.moments g)
    (hn : m.Needs g key) : key ∈ g.registry.exportedKeys := by
  rw [eq_of_mem_exportBlocks hb] at hm
  obtain rfl : m = .own (.barriers batch) := List.mem_singleton.1 hm
  rcases hn with ⟨batch', hbatch, c, hc, hci⟩ | ⟨i, -, hcall, -⟩
  · cases hbatch
    have hkey := h.exported key.kind c hc
    rwa [hci] at hkey
  · cases hcall

/-- **Blocks on different queues with moments that are not independent have a hazard.** -/
theorem hazard (h : g.Traced blocks batch) {before mid after : List Block}
    (e : blocks ++ exportBlocks batch = before ++ x :: mid ++ y :: after) (hm : m ∈ x.moments g) (hm' : m' ∈ y.moments g)
    (hq : x.queue ≠ y.queue) (hdep : ¬ m.Independent g m') : g.Hazard x y := by
  obtain ⟨key, hn, hn', hs⟩ : ∃ key, m.Needs g key ∧ m'.Needs g key ∧ (m.Shifts key ∨ m'.Shifts key) := by
    unfold Moment.Independent at hdep
    push Not at hdep
    obtain ⟨key, hkey⟩ := hdep
    by_cases hs : m.Shifts key ∧ m'.Needs g key
    · exact ⟨key, .inl hs.1, hs.2, .inl hs.1⟩
    · obtain ⟨hn, hs'⟩ := hkey fun h1 h2 => hs ⟨h1, h2⟩
      exact ⟨key, hn, .inl hs', .inr hs'⟩
  have hy : y ∈ blocks ++ exportBlocks batch := e ▸ List.mem_append_right _ List.mem_cons_self
  have hx : x ∈ blocks := mem_of_exportBlocks e (List.mem_append_right _ List.mem_cons_self)
  obtain ⟨p, hp, hu, ha⟩ := h.of_needs hx hm hn
  refine ⟨hq, p, hp, ?_⟩
  rcases List.mem_append.1 hy with hy | hy
  · obtain ⟨p', hp', hu', ha'⟩ := h.of_needs hy hm' hn'
    exact .inl ⟨p', hp', key, hu, hu', hs.imp ha ha'⟩
  · refine .inr ⟨?_, key, h.of_needs_exports hy hm' hn', hu⟩
    rw [eq_of_mem_exportBlocks hy]

/-- a signal made after a block has a higher value than all before it -/
theorem fresh (h : g.Traced blocks batch) {before mid after : List Block} {value value' : Nat}
    (e : blocks ++ exportBlocks batch = before ++ x :: mid ++ y :: after) (hxy : g.Hazard x y)
    (hs : .ofSignal x.queue value ∈ mid) (hb : b ∈ before ++ [x]) (hc : .signal x.queue value' ∈ b.commands) :
    value' < value := by
  have hsplit : blocks ++ exportBlocks batch = before ++ ([x] ++ (mid ++ y :: after)) := by
    rw [e, List.append_assoc, List.cons_append, List.singleton_append]
  have hmem : b ∈ blocks ++ exportBlocks batch := by
    rw [hsplit, ← List.append_assoc]
    exact List.mem_append_left _ hb
  obtain rfl := h.eq_ofSignal hmem hc
  rcases List.mem_append.1 hb with hb | hb
  · have hgrowing := h.growing x.queue
    rw [hsplit, signalsOn_append, List.pairwise_append] at hgrowing
    refine hgrowing.2.2 value' (mem_signalsOn hb) value (mem_signalsOn ?_)
    exact List.mem_append_right _ (List.mem_append_left _ hs)
  · obtain ⟨-, p, hp, -⟩ := hxy
    exact absurd (isSync_ofSignal x.queue value' x (List.mem_singleton.2 (List.mem_singleton.1 hb).symm)) hp.not_isSync

/-- **What is recorded may be run in any order the waits allow.** -/
theorem fenced (h : g.Traced blocks batch) : Fenced g ((blocks ++ exportBlocks batch).flatMap (Block.tagged g)) where
  own := fun x hx f value hc => by
    obtain ⟨b, hb, hx⟩ := List.mem_flatMap.1 hx
    obtain ⟨m, hm, rfl⟩ := List.mem_map.1 hx
    rw [h.eq_ofSignal hb (mem_commands_of_mem_moments hm hc)]
    rfl
  between := fun done a mid t post e hq hdep => by
    obtain ⟨before, x, mid', y, after, hblocks, haq, ham, htq, htm, hmid, hdone⟩ := exists_blocks e hq
    rw [haq, htq] at hq ⊢
    have hhazard := h.hazard hblocks ham htm hq hdep
    obtain ⟨value, satisfied, hsub⟩ := h.ordered before x mid' y after hblocks hhazard
    refine ⟨value, satisfied, hmid (List.mem_flatMap.2 ⟨.ofWait x.queue y.queue value satisfied, ?_, List.mem_cons_self⟩),
      fun z hz value' hsignal => ?_⟩
    · exact hsub.subset (List.mem_cons_of_mem _ List.mem_cons_self)
    · obtain ⟨b, hb, hzb⟩ := hdone z hz
      exact h.fresh hblocks hhazard (hsub.subset List.mem_cons_self) hb (mem_commands_of_mem_moments hzb hsignal)

end Graph.Traced

/-! ## The order of the log -/

theorem onQueue_tagged (q : Queue) (b : Block) : onQueue q (b.tagged g) = if b.queue = q then b.moments g else [] := by
  unfold onQueue Block.tagged
  split
  · rename_i hq
    rw [List.filter_eq_self.2, List.map_map]
    · exact List.map_id _
    · intro x hx
      obtain ⟨m, -, rfl⟩ := List.mem_map.1 hx
      exact decide_eq_true hq
  · rename_i hq
    rw [List.filter_eq_nil_iff.2]
    · rfl
    · intro x hx e
      obtain ⟨m, -, rfl⟩ := List.mem_map.1 hx
      exact hq (of_decide_eq_true e)

theorem onQueue_blocks (q : Queue) (blocks : List Block) :
    onQueue q (blocks.flatMap (Block.tagged g)) =
      (blocks.filter fun b => decide (b.queue = q)).flatMap (Block.moments g) := by
  induction blocks with
  | nil => rfl
  | cons b blocks ih =>
    rw [List.flatMap_cons, onQueue_append, ih, onQueue_tagged, List.filter_cons]
    by_cases hq : b.queue = q <;> simp [hq]

theorem map_tagged (blocks : List Block) :
    (blocks.flatMap (Block.tagged g)).map Prod.snd = blocks.flatMap (Block.moments g) := by
  rw [List.map_flatMap]
  refine List.flatMap_congr fun b _ => ?_
  rw [Block.tagged, List.map_map]
  exact List.map_id _

/-- a batch that is an exact difference replays, also when nothing is issued because it is empty -/
theorem replayed_of_moves {batch : Batch} (h : ∀ k, Moves g.registry.layout (w k) (w' k) (batch.get k)) :
    Replayed g w (if batch.count > 0 then [.own (.barriers batch)] else []) w' := by
  obtain ⟨hsound, hw⟩ := consistent_of_moves h
  split
  · rename_i hc
    rw [if_pos hc] at hsound hw
    exact ⟨hsound.1, hw⟩
  · rename_i hc
    rw [if_neg hc] at hw
    exact hw

/-- **The block of a pass replays if its planned barriers are an exact difference.** -/
theorem Block.OfPass.replayed {x : Nat × Pass} {queue : Queue} {b : Block} (hb : b.OfPass g.settings.events queue x)
    (hx : g.passes[x.1]? = some x.2)
    (h : ∀ k, FrameGraph.Moves g.registry.layout (w k) (w.grant g.registry.layout g.passes x.1 k) (x.2.plan.barriers.get k)) :
    Replayed g w (b.moments g) (w.grant g.registry.layout g.passes x.1) := by
  obtain ⟨post, e, hpost, hcalls⟩ := hb.moments hx
  rw [e, replayed_append]
  refine ⟨w.grant g.registry.layout g.passes x.1, ?_, ?_, ?_⟩
  · have hopening : (x.2.opening g.settings.events).map Moment.own = (if g.settings.events then [.own (.beginEvent x.2.name)] else [])
        ++ (if x.2.plan.barriers.count > 0 then [.own (.barriers x.2.plan.barriers)] else []) := by
      rw [Pass.opening, List.map_append]
      split <;> split <;> rfl
    rw [hopening, replayed_append]
    refine ⟨w, Replayed.idle fun m hm => ?_, replayed_of_moves h⟩
    split at hm
    · rw [List.mem_singleton.1 hm]
      exact ⟨rfl, rfl⟩
    · cases hm
  · intro p hp k n bounds hl a u hu
    exact (World.grant_spec hp hl a).1 u hu
  · have hidle : Replayed g (w.grant g.registry.layout g.passes x.1) post (w.grant g.registry.layout g.passes x.1) :=
      Replayed.idle fun m hm => ⟨List.filterMap_eq_nil_iff.1 hpost m hm, List.filterMap_eq_nil_iff.1 hcalls m hm⟩
    exact hidle

/-- so do the blocks of passes in the order they were recorded -/
theorem Recorded.replayed {on : Pass → Queue} {walk : List (Nat × Pass)} {blocks : List Block}
    (h : Recorded g.settings.events on walk blocks) (hp : ∀ x ∈ walk, g.passes[x.1]? = some x.2)
    (hg : Granted g.registry.layout g.passes w (walk.map fun x => (x.1, x.2.plan.barriers))) :
    Replayed g w (blocks.flatMap (Block.moments g)) (w.grantAll g.registry.layout g.passes (walk.map Prod.fst)) := by
  induction h generalizing w with
  | nil => rfl
  | @pass x walk b blocks hb _ ih =>
    obtain ⟨hx, hp⟩ := List.forall_mem_cons.1 hp
    rw [List.flatMap_cons, replayed_append]
    exact ⟨_, hb.replayed hx hg.1, ih hp hg.2⟩
  | @sync walk b blocks hs hb _ ih =>
    rw [List.flatMap_cons, replayed_append]
    refine ⟨w, Replayed.idle fun m hm => ?_, ih hp hg⟩
    have hcalls : (b.moments g).filterMap Moment.call? = [] := by
      unfold Block.moments
      rw [hs]
      exact own_calls _
    exact ⟨List.filterMap_eq_nil_iff.1 (sync_batches hs hb) m hm, List.filterMap_eq_nil_iff.1 hcalls m hm⟩

theorem allowed_of_split {done ms : List (Queue × Moment)}
    (h : ∀ before x after, ms = before ++ x :: after → ∀ f value satisfied, x.2.command? = some (.wait f value satisfied) →
      ∃ y ∈ done ++ before, ∃ value', y.2.command? = some (.signal f value') ∧ value ≤ value') : Allowed done ms := by
  induction ms generalizing done with
  | nil => trivial
  | cons x ms ih =>
    refine ⟨fun f value satisfied hx => ?_, ih fun before y after e => ?_⟩
    · have hy := h [] x ms rfl f value satisfied hx
      rwa [List.append_nil] at hy
    · rw [List.append_assoc]
      exact h (x :: before) y after (by rw [e, List.cons_append])

/-- **The order of the log is a schedule.** -/
theorem Graph.Traced.schedule {blocks : List Block} {batch : Batch} (h : g.Traced blocks batch) {log : Log}
    (hlog : log.blocks = blocks ++ exportBlocks batch) : g.Schedule log (log.blocks.flatMap (Block.tagged g)) where
  streams := fun q => onQueue_blocks q log.blocks
  allowed := by
    refine allowed_of_split fun before x after e f value satisfied hx => ?_
    obtain ⟨earlier, b, later, pre, post, hb, hxb, rfl, -⟩ := exists_of_flatMap e
    rw [hlog] at hb
    obtain ⟨m, hm, rfl⟩ := List.mem_map.1 (show x ∈ b.tagged g from hxb ▸ List.mem_append_right _ List.mem_cons_self)
    have hmem : b ∈ blocks ++ exportBlocks batch := hb ▸ List.mem_append_right _ List.mem_cons_self
    obtain rfl := h.eq_ofWait hmem (mem_commands_of_mem_moments hm hx)
    have hsignal : .ofSignal f value ∈ earlier := by
      rcases eq_append_or_eq_append hb with ⟨later', e', -⟩ | ⟨more, e', -⟩
      · exact h.awaited earlier f value satisfied later' e'
      · have hsource := congrArg Block.source (eq_of_mem_exportBlocks (e' ▸ List.mem_append_right more List.mem_cons_self))
        cases hsource
    refine ⟨(f, .own (.signal f value)), ?_, value, rfl, le_rfl⟩
    rw [List.nil_append]
    exact List.mem_append_left _ (List.mem_flatMap.2 ⟨_, hsignal, List.mem_cons_self⟩)

/-! ## Every schedule is safe -/

theorem perm_onQueue (ms : List (Queue × Moment)) :
    (ms.map Prod.snd).Perm (onQueue .graphics ms ++ onQueue .compute ms) := by
  have hcompute : onQueue .compute ms = (ms.filter fun x => !decide (x.1 = .graphics)).map Prod.snd := by
    refine congrArg (List.map Prod.snd) (List.filter_congr fun x _ => ?_)
    cases x.1 <;> rfl
  rw [hcompute, onQueue, ← List.map_append]
  exact (List.filter_append_perm _ ms).symm.map Prod.snd

/-- a schedule has the moments of the log, each as often as the log has it -/
theorem Graph.Schedule.perm {log : Log} {ms : List (Queue × Moment)} (h : g.Schedule log ms) :
    (ms.map Prod.snd).Perm (g.moments log) := by
  have hlog := perm_onQueue (log.blocks.flatMap (Block.tagged g))
  rw [map_tagged, onQueue_blocks, onQueue_blocks, ← h.streams, ← h.streams] at hlog
  exact (perm_onQueue ms).trans hlog.symm

namespace Graph

/-- whatever else happens in this order, the frame is done right -/
structure SafelyRun (frame : Graph) (ms : List (Queue × Moment)) : Prop where
  /-- every batch is sound where the ones before it lead -/
  consistent : Consistent frame.registry.layout frame.registry.initially ((ms.map Prod.snd).filterMap Moment.batch?)
  /-- every pass that is walked is called once -/
  calls : ((ms.map Prod.snd).filterMap Moment.call?).Perm (frame.walk.map Prod.fst)
  /-- a callback finds each address its pass uses in the state of the last usage that has it -/
  served : ∀ before q i after p, ms = before ++ (q, .call i) :: after → frame.passes[i]? = some p →
    p.Served frame.registry.layout (frame.registry.initially.afterAll frame.registry.layout (before.map Prod.snd))
  /-- every address of an exported resource ends in the export state -/
  delivered : ∀ k n r s, (frame.registry.get k)[n]? = some r → r.exported = some s → ∀ a < k.size r.bounds,
    frame.registry.initially.afterAll frame.registry.layout (ms.map Prod.snd) k n a = some s

/-- a run of a planned graph with quiet callbacks -/
theorem Planned.traced {fences : Fences} {g' : Graph} {log : Log} (hp : g.Planned) (hquiet : ∀ x ∈ g.walk, x.2.Quiet)
    (h : g.executeAsync (.both true) fences = .ok (g', log)) :
    ∃ blocks batch, g.Traced blocks batch ∧ log.blocks = blocks ++ exportBlocks batch ∧
      ∀ k, Moves g.registry.layout (g.registry.world k) (g.registry.deliver g.registry.world k) (batch.get k) := by
  obtain ⟨run, batch, hinv, hb, hlog, hordered⟩ := executeAsync_inv h
  obtain ⟨batch', hb', hmoves⟩ := exportBatch_moves hp.ready g.settings
  obtain rfl : batch = batch' := Except.ok.inj (hb.symm.trans hb')
  refine ⟨run.log.blocks, batch, ?_, hlog, fun k => (hmoves k).1⟩
  refine ⟨hinv.recorded, hinv.syncs, hinv.tallied.awaited, fun q => ?_, hlog ▸ hordered, hquiet, hp.used, fun k => (hmoves k).2⟩
  have hnone : signalsOn q (exportBlocks batch) = [] := by
    unfold exportBlocks
    split <;> rfl
  rw [signalsOn_append, hnone, List.append_nil]
  exact hinv.tallied.growing q

/-- a planned graph is run safely in every schedule of what is recorded -/
theorem Planned.safelyRun {blocks : List Block} {batch : Batch} {log : Log} {ms : List (Queue × Moment)} (hp : g.Planned)
    (ht : g.Traced blocks batch) (hlog : log.blocks = blocks ++ exportBlocks batch)
    (hmoves : ∀ k, Moves g.registry.layout (g.registry.world k) (g.registry.deliver g.registry.world k) (batch.get k))
    (hs : g.Schedule log ms) : g.SafelyRun ms := by
  have hpasses : ∀ x ∈ g.walk, g.passes[x.1]? = some x.2 := fun x hx => (of_mem_walk hx).1
  have hlogged : Replayed g g.registry.initially (log.blocks.flatMap (Block.moments g))
      (g.registry.deliver g.registry.world) := by
    have hexports : Replayed g g.registry.world ((exportBlocks batch).flatMap (Block.moments g))
        (g.registry.deliver g.registry.world) := by
      rw [moments_exportBlocks]
      exact replayed_of_moves hmoves
    rw [hlog, List.flatMap_append, replayed_append]
    refine ⟨g.registry.world, ?_, hexports⟩
    rw [hp.tracked]
    exact ht.recorded.replayed hpasses hp.granted
  have hreplayed : Replayed g g.registry.initially (ms.map Prod.snd) (g.registry.deliver g.registry.world) := by
    have hfenced : Fenced g ([] ++ log.blocks.flatMap (Block.tagged g)) := hlog ▸ ht.fenced
    refine hfenced.reorder (fun q => ?_) hs.allowed ?_
    · rw [hs.streams, onQueue_blocks]
    · rwa [map_tagged]
  refine ⟨hreplayed.consistent, ?_, fun before q i after p e hpi => ?_, fun k n r s hr hexported a ha => ?_⟩
  · have hcalls : ((exportBlocks batch).flatMap (Block.moments g)).filterMap Moment.call? = [] := by
      rw [moments_exportBlocks]
      split <;> rfl
    have hall : (g.moments log).filterMap Moment.call? = g.walk.map Prod.fst := by
      rw [moments, hlog, List.flatMap_append, List.filterMap_append, hcalls, List.append_nil]
      exact ht.recorded.calls hpasses
    exact hall ▸ hs.perm.filterMap Moment.call?
  · rw [e, List.map_append, List.map_cons] at hreplayed
    exact hreplayed.served hpi
  · rw [hreplayed.afterAll_eq, Registry.deliver, hr, Option.bind_some, hexported, Option.bind_some, if_pos ha]
    rfl

/-- **Every schedule of the two queues is safe.** -/
theorem executeAsync_schedules {σ : Type} {g g' : Graph} {dev : Device σ} {s s' : σ} {stats : Stats} (h : g.Built)
    (hc : g.compile dev s = .ok (g', .ok stats, s')) (hd : g'.registry.Distinct)
    (hcells : ∀ r ∈ g'.registry.textures, r.bounds.cells ≤ 2 ^ 32) (runs : Nat) (fences : Fences) :
    let frame := afterRun^[runs] g'
    (∀ x ∈ frame.walk, x.2.Quiet) → frame.executeAsync (.both true) fences ≠ .error .overflow →
      ∃ log, frame.executeAsync (.both true) fences = .ok (frame.afterRun, log) ∧
        frame.Schedule log (log.blocks.flatMap (Block.tagged frame)) ∧
        ∀ ms, frame.Schedule log ms → frame.SafelyRun ms := by
  intro frame hquiet hno
  have hp : frame.Planned := (planned_of_compile h hc hd (countable_of_cells hcells)).afterRuns runs
  obtain ⟨batch, hb, -⟩ := exportBatch_moves hp.ready frame.settings
  obtain ⟨log, hrun⟩ := exists_executeAsync hb hno
  obtain ⟨blocks, batch, ht, hlog, hmoves⟩ := hp.traced hquiet hrun
  exact ⟨log, hrun, ht.schedule hlog, fun ms hs => hp.safelyRun ht hlog hmoves hs⟩

/-- every schedule of the sample frame is safe -/
theorem executeAsync_schedules_sample :
    ∃ g' stats s', sample.compile CountingDevice.device {} = .ok (g', .ok stats, s') ∧
      ∃ log, g'.executeAsync (.both true) (.both .new) = .ok (g'.afterRun, log) ∧
        g'.Schedule log (log.blocks.flatMap (Block.tagged g')) ∧ ∀ ms, g'.Schedule log ms → g'.SafelyRun ms := by
  obtain ⟨g', stats, s', hc, hd, hcells, hcallbacks, result, hrun⟩ := sample_compiles
  have hquiet : ∀ x ∈ g'.walk, x.2.Quiet := by
    intro x hx a ha
    rw [hcallbacks x hx] at ha
    cases ha
  have hno : g'.executeAsync (.both true) (.both .new) ≠ .error .overflow := by
    intro e
    rw [hrun] at e
    cases e
  exact ⟨g', stats, s', hc, executeAsync_schedules built_sample hc hd hcells 0 (.both .new) hquiet hno⟩

end Graph

end FrameGraph
