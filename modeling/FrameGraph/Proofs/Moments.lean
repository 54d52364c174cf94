/-
What a log means while it is read: whose command is next, and when a callback is called.

The block of a pass begins with the commands of the executor (`Pass.opening`), then has whatever the callback asked for,
and ends with the executor's again (`Pass.closing`). Read this way a block is a list of moments (`Block.moments`), one of
which is the call of the callback. The batches of the executor are the ones replayed; a batch a callback asked for is
its own affair.

- `moments_commands`: leaving out the calls, the moments of a block are its commands.
- `Recorded`: the blocks of some passes in order, with signals and waits in between.
- `Recorded.replay`: if the planned barriers are exact differences, the blocks replay, and end in the states all passes
  leave.
-/
import FrameGraph.Proofs.Built
import FrameGraph.Execution.TwoQueues
import Mathlib.Data.List.DropRight

namespace FrameGraph

/-! ## Moments -/

/-- a command of the executor, the call of the callback of a pass, or a command a callback asked for -/
inductive Moment where
  | own (c : Command)
  | call (index : Nat)
  | asked (c : Command)

namespace Moment

/-- the command written down, if it is one -/
def command? : Moment → Option Command
  | own c => some c
  | call _ => none
  | asked c => some c

/-- the batch the executor issues, if it is one -/
def batch? : Moment → Option Batch
  | own (.barriers b) => some b
  | _ => none

/-- the pass whose callback is called, if one is -/
def call? : Moment → Option Nat
  | call i => some i
  | _ => none

end Moment

/-- the commands before the callback of a pass -/
def Pass.opening (events : Bool) (p : Pass) : List Command :=
  (if events then [.beginEvent p.name] else [])
    ++ (if p.plan.barriers.count > 0 then [.barriers p.plan.barriers] else [])

/-- the commands after it -/
def Pass.closing (events : Bool) : List Command := if events then [.endEvent] else []

/-- the number of commands before the callback of a pass of the graph -/
def Graph.openingLength (g : Graph) (i : Nat) : Nat :=
  ((g.passes[i]?).map fun p => (p.opening g.settings.events).length).getD 0

/-- the moments of a block -/
def Block.moments (g : Graph) (b : Block) : List Moment :=
  match b.source with
  | .pass i =>
    let rest := b.commands.drop (g.openingLength i)
    let n := (Pass.closing g.settings.events).length
    (b.commands.take (g.openingLength i)).map .own ++ .call i :: ((rest.rdrop n).map .asked ++ (rest.rtake n).map .own)
  | .sync => b.commands.map .own
  | .exports => b.commands.map .own

/-- leaving out the calls, the moments of a block are its commands -/
theorem moments_commands (g : Graph) (b : Block) : (b.moments g).filterMap Moment.command? = b.commands := by
  have hown : ∀ cs : List Command, (cs.map Moment.own).filterMap Moment.command? = cs := by
    intro cs
    rw [List.filterMap_map]
    exact List.filterMap_some
  have hasked : ∀ cs : List Command, (cs.map Moment.asked).filterMap Moment.command? = cs := by
    intro cs
    rw [List.filterMap_map]
    exact List.filterMap_some
  unfold Block.moments
  split
  · simp only [List.filterMap_append, List.filterMap_cons, hown, hasked, Moment.command?, List.rdrop, List.rtake,
      List.take_append_drop]
  · exact hown _
  · exact hown _

/-- the moments of a block of a pass -/
theorem moments_pass {g : Graph} {i : Nat} {p : Pass} (hp : g.passes[i]? = some p) (queue : Queue)
    (asked : List Command) :
    Block.moments g ⟨queue, .pass i, p.opening g.settings.events ++ asked ++ Pass.closing g.settings.events⟩ =
      (p.opening g.settings.events).map .own ++
        .call i :: (asked.map .asked ++ (Pass.closing g.settings.events).map .own) := by
  simp only [Block.moments, Graph.openingLength, hp, Option.map_some, Option.getD_some, List.append_assoc,
    List.take_left, List.drop_left, List.rdrop, List.rtake, List.length_append, Nat.add_sub_cancel]

/-! ## Worlds along moments -/

/-- the world after some moments -/
def World.afterAll (L : Layout) (w : World) (ms : List Moment) : World :=
  (ms.filterMap Moment.batch?).foldl (World.apply L) w

/-- batches one after another, each sound where the ones before it lead -/
def Consistent (L : Layout) : World → List Batch → Prop
  | _, [] => True
  | w, batch :: rest => batch.Sound L w ∧ Consistent L (w.apply L batch) rest

theorem World.afterAll_append (L : Layout) (w : World) (ms ns : List Moment) :
    w.afterAll L (ms ++ ns) = (w.afterAll L ms).afterAll L ns := by
  rw [afterAll, List.filterMap_append, List.foldl_append]
  rfl

theorem consistent_append {L : Layout} {w : World} {bs cs : List Batch} :
    Consistent L w (bs ++ cs) ↔ Consistent L w bs ∧ Consistent L (bs.foldl (World.apply L) w) cs := by
  induction bs generalizing w with
  | nil => simp [Consistent]
  | cons b bs ih => simp only [List.cons_append, Consistent, ih, List.foldl_cons, and_assoc]

/-! ## What a pass records -/

theorem Action.record_append (syncs : Bool) (fences : Fences) (as bs : List Action) :
    Action.record syncs fences (as ++ bs) =
      Action.record syncs fences as ++ Action.record syncs (Action.advanceAll syncs fences as) bs := by
  induction as generalizing fences with
  | nil => rfl
  | cons a as ih => rw [List.cons_append, record, ih, record, List.append_assoc]; rfl

/-- a pass records its opening, what its callback asks for, and its closing -/
theorem Pass.record_actions (syncs : Bool) (fences : Fences) (events : Bool) (p : Pass) :
    Action.record syncs fences (p.actions events) =
      p.opening events ++ Action.record syncs fences (p.callback (p.runs + 1)) ++ closing events := by
  have hopen : ∀ as : List Action, Action.record syncs fences ((if events then [.beginEvent p.name] else []) ++
      ((if p.plan.barriers.count > 0 then [.barriers p.plan.barriers] else []) ++ as)) =
        p.opening events ++ Action.record syncs fences as := by
    intro as
    unfold opening
    cases events <;> by_cases hc : p.plan.barriers.count > 0 <;> simp [hc] <;> rfl
  have hclose : ∀ fences, Action.record syncs fences (if events then [.endEvent] else []) = closing events :=
    fun fences => by cases events <;> rfl
  rw [actions, List.append_assoc, List.append_assoc, hopen, Action.record_append, hclose, List.append_assoc]

/-- the batches of a pass: the planned one, unless it is empty -/
theorem Pass.opening_batches (events : Bool) (p : Pass) :
    ((p.opening events).map Moment.own).filterMap Moment.batch? =
      if p.plan.barriers.count > 0 then [p.plan.barriers] else [] := by
  unfold opening
  cases events <;> by_cases hc : p.plan.barriers.count > 0 <;> simp [hc] <;> rfl

theorem closing_batches (events : Bool) (asked : List Command) :
    (asked.map Moment.asked ++ (Pass.closing events).map Moment.own).filterMap Moment.batch? = [] := by
  rw [List.filterMap_append, List.append_eq_nil_iff]
  constructor
  · rw [List.filterMap_eq_nil_iff]
    intro m hm
    obtain ⟨c, -, rfl⟩ := List.mem_map.1 hm
    rfl
  · cases events <;> rfl

/-! ## The blocks of a run -/

/-- the block of a pass on the queue it runs on -/
def Block.OfPass (events : Bool) (queue : Queue) (x : Nat × Pass) (b : Block) : Prop :=
  ∃ syncs fences, b = ⟨queue, .pass x.1, Action.record syncs fences (x.2.actions events)⟩

/-- the blocks of some passes in order, with blocks that hold no barriers in between -/
inductive Recorded (events : Bool) (on : Pass → Queue) : List (Nat × Pass) → List Block → Prop
  | nil : Recorded events on [] []
  | pass {x : Nat × Pass} {walk : List (Nat × Pass)} {b : Block} {blocks : List Block} :
    b.OfPass events (on x.2) x → Recorded events on walk blocks → Recorded events on (x :: walk) (b :: blocks)
  | sync {walk : List (Nat × Pass)} {b : Block} {blocks : List Block} :
    b.source = .sync → (∀ batch, Command.barriers batch ∉ b.commands) → Recorded events on walk blocks →
      Recorded events on walk (b :: blocks)

namespace Recorded

variable {events : Bool} {on : Pass → Queue} {walk walk' : List (Nat × Pass)} {blocks blocks' : List Block}

theorem append (h : Recorded events on walk blocks) (h' : Recorded events on walk' blocks') :
    Recorded events on (walk ++ walk') (blocks ++ blocks') := by
  induction h with
  | nil => exact h'
  | pass hb _ ih => exact pass hb ih
  | sync hs hb _ ih => exact sync hs hb ih

theorem split (h : Recorded events on walk (blocks ++ blocks')) :
    ∃ walk₁ walk₂, walk = walk₁ ++ walk₂ ∧ Recorded events on walk₁ blocks ∧ Recorded events on walk₂ blocks' := by
  induction blocks generalizing walk with
  | nil => exact ⟨[], walk, rfl, nil, h⟩
  | cons b blocks ih =>
    cases h with
    | pass hb h =>
      obtain ⟨walk₁, walk₂, rfl, h1, h2⟩ := ih h
      exact ⟨_ :: walk₁, walk₂, rfl, pass hb h1, h2⟩
    | sync hs hb h =>
      obtain ⟨walk₁, walk₂, rfl, h1, h2⟩ := ih h
      exact ⟨walk₁, walk₂, rfl, sync hs hb h1, h2⟩

/-- each pass has one block, in order -/
theorem sources (h : Recorded events on walk blocks) :
    (blocks.filterMap fun b => match b.source with | .pass i => some i | _ => none) = walk.map Prod.fst := by
  induction h with
  | nil => rfl
  | pass hb _ ih =>
    obtain ⟨syncs, fences, rfl⟩ := hb
    rw [List.filterMap_cons, ih]
    rfl
  | sync hs _ _ ih =>
    rw [List.filterMap_cons, hs]
    exact ih

end Recorded

variable {L : Layout} {w w' : World} {batch : Batch} {g : Graph}

theorem Batch.get_eq_nil (h : ¬ batch.count > 0) (k : ResourceKind) : batch.get k = [] := by
  rw [count, Nat.not_lt, Nat.le_zero, Nat.add_eq_zero_iff] at h
  cases k
  · exact List.length_eq_zero_iff.1 h.1
  · exact List.length_eq_zero_iff.1 h.2

/-- an exact difference is sound and leads where it should, also when nothing is issued because it is empty -/
theorem consistent_of_moves (h : ∀ k, Moves L (w k) (w' k) (batch.get k)) :
    Consistent L w (if batch.count > 0 then [batch] else []) ∧
      (if batch.count > 0 then [batch] else []).foldl (World.apply L) w = w' := by
  by_cases hc : batch.count > 0
  · rw [if_pos hc]
    obtain ⟨h1, h2⟩ := Batch.sound_of_moves h
    exact ⟨⟨h1, trivial⟩, h2⟩
  · rw [if_neg hc]
    refine ⟨trivial, funext fun k => ?_⟩
    have hk := h k
    rw [Batch.get_eq_nil hc] at hk
    exact hk.eq_of_nil

/-- the moments of a block of a pass: its batch, the call, and nothing more that is replayed -/
theorem Block.OfPass.moments {x : Nat × Pass} {queue : Queue} {b : Block}
    (hb : b.OfPass g.settings.events queue x) (hx : g.passes[x.1]? = some x.2) :
    ∃ post, b.moments g = (x.2.opening g.settings.events).map .own ++ .call x.1 :: post ∧
      post.filterMap Moment.batch? = [] ∧ post.filterMap Moment.call? = [] := by
  obtain ⟨syncs, fences, rfl⟩ := hb
  rw [Pass.record_actions, moments_pass hx]
  refine ⟨_, rfl, closing_batches _ _, ?_⟩
  rw [List.filterMap_eq_nil_iff]
  intro m hm
  rcases List.mem_append.1 hm with hm | hm
  · obtain ⟨c, -, rfl⟩ := List.mem_map.1 hm
    rfl
  · obtain ⟨c, -, rfl⟩ := List.mem_map.1 hm
    rfl

theorem Block.OfPass.batches {x : Nat × Pass} {queue : Queue} {b : Block}
    (hb : b.OfPass g.settings.events queue x) (hx : g.passes[x.1]? = some x.2) :
    (b.moments g).filterMap Moment.batch? = if x.2.plan.barriers.count > 0 then [x.2.plan.barriers] else [] := by
  obtain ⟨post, e, hpost, -⟩ := hb.moments hx
  rw [e, List.filterMap_append, Pass.opening_batches, List.filterMap_cons, hpost]
  exact List.append_nil _

theorem own_calls (cs : List Command) : (cs.map Moment.own).filterMap Moment.call? = [] := by
  rw [List.filterMap_eq_nil_iff]
  intro m hm
  obtain ⟨c, -, rfl⟩ := List.mem_map.1 hm
  rfl

/-- signals and waits are not replayed -/
theorem sync_batches {b : Block} (hs : b.source = .sync) (hb : ∀ batch, Command.barriers batch ∉ b.commands) :
    (b.moments g).filterMap Moment.batch? = [] := by
  unfold Block.moments
  rw [hs, List.filterMap_eq_nil_iff]
  intro m hm
  obtain ⟨c, hc, rfl⟩ := List.mem_map.1 hm
  cases c with
  | barriers batch => exact absurd hc (hb batch)
  | _ => rfl

/-- **The blocks of passes replay if the planned barriers are exact differences,** and end in the states all passes
leave. -/
theorem Recorded.replay {on : Pass → Queue} {walk : List (Nat × Pass)} {blocks : List Block}
    (h : Recorded g.settings.events on walk blocks) (hp : ∀ x ∈ walk, g.passes[x.1]? = some x.2)
    (hg : Granted L g.passes w (walk.map fun x => (x.1, x.2.plan.barriers))) :
    Consistent L w ((blocks.flatMap (Block.moments g)).filterMap Moment.batch?) ∧
      w.afterAll L (blocks.flatMap (Block.moments g)) = w.grantAll L g.passes (walk.map Prod.fst) := by
  induction h generalizing w with
  | nil => exact ⟨trivial, rfl⟩
  | @pass x walk b blocks hb _ ih =>
    obtain ⟨hx, hp⟩ := List.forall_mem_cons.1 hp
    obtain ⟨h1, h2⟩ := consistent_of_moves hg.1
    obtain ⟨h3, h4⟩ := ih hp hg.2
    have hw : w.afterAll L (b.moments g) = w.grant L g.passes x.1 := by rw [World.afterAll, hb.batches hx, h2]
    rw [List.flatMap_cons]
    refine ⟨?_, ?_⟩
    · rw [List.filterMap_append, hb.batches hx, consistent_append, h2]
      exact ⟨h1, h3⟩
    · rw [World.afterAll_append, hw, h4]
      rfl
  | @sync walk b blocks hs hb _ ih =>
    obtain ⟨h3, h4⟩ := ih hp hg
    have hnil := sync_batches (g := g) hs hb
    have hw : w.afterAll L (b.moments g) = w := by
      rw [World.afterAll, hnil]
      rfl
    rw [List.flatMap_cons]
    refine ⟨?_, ?_⟩
    · rw [List.filterMap_append, hnil]
      exact h3
    · rw [World.afterAll_append, hw, h4]

theorem granted_append {passes : List Pass} {batches batches' : Batches} :
    Granted L passes w (batches ++ batches') ↔
      Granted L passes w batches ∧ Granted L passes (w.grantAll L passes (batches.map Prod.fst)) batches' := by
  induction batches generalizing w with
  | nil => exact ⟨fun h => ⟨trivial, h⟩, And.right⟩
  | cons x rest ih =>
    simp only [List.cons_append, Granted, ih, and_assoc]
    rfl

/-- **When the callback of a pass is called the world is what the pass is granted.** -/
theorem Recorded.world_at_call {on : Pass → Queue} {walk : List (Nat × Pass)} {before after : List Block} {b : Block}
    {i : Nat} (h : Recorded g.settings.events on walk (before ++ b :: after)) (hb : b.source = .pass i)
    (hp : ∀ x ∈ walk, g.passes[x.1]? = some x.2)
    (hg : Granted L g.passes w (walk.map fun x => (x.1, x.2.plan.barriers))) :
    ∃ pre post, b.moments g = pre ++ .call i :: post ∧ (pre ++ post).filterMap Moment.call? = [] ∧
      (w.afterAll L (before.flatMap (Block.moments g))).afterAll L pre =
        (w.afterAll L (before.flatMap (Block.moments g))).grant L g.passes i := by
  obtain ⟨walk₁, walk₂, rfl, h1, h2⟩ := h.split
  rw [List.map_append, granted_append, List.map_map] at hg
  obtain ⟨hg1, hg2⟩ := hg
  have hw := (h1.replay (fun x hx => hp x (List.mem_append_left _ hx)) hg1).2
  cases h2 with
  | sync hs _ _ =>
    rw [hs] at hb
    cases hb
  | @pass x walk' _ _ hof _ =>
    have hx := hp x (List.mem_append_right _ List.mem_cons_self)
    obtain rfl : x.1 = i := by
      obtain ⟨syncs, fences, rfl⟩ := hof
      cases hb
      rfl
    obtain ⟨post, e, -, hpost⟩ := hof.moments hx
    refine ⟨_, post, e, ?_, ?_⟩
    · rw [List.filterMap_append, hpost, own_calls]
      rfl
    · rw [hw, World.afterAll, Pass.opening_batches]
      exact (consistent_of_moves hg2.1).2

/-! ## One queue -/

theorem Log.record_blocks (syncs : PerQueue Bool) (events : Bool) (queue : Queue) (walk : List (Nat × Pass)) (log : Log) :
    ∃ blocks, (walk.foldl (fun (log : Log) (i, p) => log.record syncs queue (.pass i) (p.actions events)) log).blocks =
        log.blocks ++ blocks ∧
      Recorded events (fun _ => queue) walk blocks := by
  induction walk generalizing log with
  | nil => exact ⟨[], (List.append_nil _).symm, .nil⟩
  | cons x walk ih =>
    obtain ⟨blocks, e, h⟩ := ih (log.record syncs queue (.pass x.1) (x.2.actions events))
    refine ⟨_ :: blocks, ?_, .pass ⟨syncs.get queue, log.fences, rfl⟩ h⟩
    rw [List.foldl_cons, e]
    exact List.append_assoc _ _ _

/-- the block of the export batch, if there is anything in it -/
def exportBlocks (batch : Batch) : List Block :=
  if batch.count > 0 then [⟨.graphics, .exports, [.barriers batch]⟩] else []

theorem Log.recordExports_blocks {syncs : PerQueue Bool} {log log' : Log} {g : Graph}
    (h : log.recordExports syncs g = .ok log') :
    ∃ batch, exportBatch g.settings g.registry = .ok batch ∧ log'.blocks = log.blocks ++ exportBlocks batch := by
  obtain ⟨batch, hb, h⟩ := bind_eq_ok.1 h
  refine ⟨batch, hb, ?_⟩
  cases h
  unfold exportBlocks
  split
  · rfl
  · exact (List.append_nil _).symm

theorem Log.recordExports_eq {syncs : PerQueue Bool} {log log' : Log} {g : Graph} {batch : Batch}
    (h : log.recordExports syncs g = .ok log') (hb : exportBatch g.settings g.registry = .ok batch) :
    log'.blocks = log.blocks ++ exportBlocks batch := by
  obtain ⟨batch', hb', e⟩ := recordExports_blocks h
  cases hb.symm.trans hb'
  exact e

/-- a run on one queue writes down the passes it walks, then the exports -/
theorem Graph.execute_recorded {syncs : PerQueue Bool} {fences : Fences} {g : Graph} {batch : Batch}
    (hb : exportBatch g.settings g.registry = .ok batch) :
    ∃ log blocks, g.execute syncs fences = .ok (g.afterRun, log) ∧ log.blocks = blocks ++ exportBlocks batch ∧
      Recorded g.settings.events (fun _ => .graphics) g.walk blocks := by
  obtain ⟨blocks, e, h⟩ := Log.record_blocks syncs g.settings.events .graphics g.walk { fences }
  rw [List.nil_append] at e
  have hlog : ∃ log', (g.walk.foldl (fun (log : Log) (i, p) =>
      log.record syncs .graphics (.pass i) (p.actions g.settings.events)) { fences }).recordExports syncs g = .ok log' := by
    rw [Log.recordExports, hb]
    exact ⟨_, rfl⟩
  obtain ⟨log, hlog⟩ := hlog
  refine ⟨log, blocks, ?_, by rw [Log.recordExports_eq hlog hb, e], h⟩
  rw [Graph.execute]
  simp only [hlog]
  rfl

end FrameGraph
