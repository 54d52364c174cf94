/-
The states of a frame's resources while barriers are replayed.

A world gives a state to each address of each resource (`World`; `States` for one kind). A barrier covers the addresses
of its part and moves them to its after-state (`Barrier.apply`); a batch is applied barrier by barrier (`World.apply`).

- `Replays`: barriers one after another, each starting from the state of every address it covers.
- `Batch.Sound`: a batch that replays, changes a state with each barrier and covers no address twice.
- `Moves`: a list of barriers is the exact difference of two states. Each address whose state differs is covered by one
  barrier, which goes from its old to its new state, and no other address is covered. It is counted, so that it does
  not depend on the order of the barriers (`Moves.perm`).
- `Moves.replays`, `Moves.once`: such a list replays in any order, ends in the new states and covers nothing twice.
-/
import FrameGraph.Proofs.Tracking
import FrameGraph.Registry

namespace FrameGraph

open ResourceKind

variable {k : ResourceKind}

/-! ## Worlds -/

/-- the bounds of each resource there is -/
abbrev Layout := (k : ResourceKind) → Nat → Option k.Bounds

/-- the layout of a registry -/
def Registry.layout (g : Registry) : Layout := fun k n => ((g.get k)[n]?).map Resource.bounds

theorem Registry.layout_of_getElem? {g : Registry} {n : Nat} {r : Resource k} (h : (g.get k)[n]? = some r) :
    g.layout k n = some r.bounds := by
  rw [layout, h, Option.map_some]

/-- a state for each address of each resource of one kind; none where there is no address -/
abbrev States := Nat → Nat → Option ResourceState

/-- the states of both kinds -/
abbrev World := ResourceKind → States

/-- the address is one the barrier moves -/
def Barrier.covers (L : Layout) (b : Barrier k) (i : Nat) : Bool :=
  (L k b.resource).any fun bounds => k.reaches bounds b.part i

/-- the states after a barrier -/
def Barrier.apply (L : Layout) (s : States) (b : Barrier k) : States := fun n i =>
  if b.resource = n ∧ b.covers L i = true then some b.after else s n i

/-- the world after a batch -/
def World.apply (L : Layout) (w : World) (batch : Batch) : World := fun k =>
  (batch.get k).foldl (Barrier.apply L) (w k)

/-- barriers one after another, each starting from the current state of every address it covers -/
def Replays (L : Layout) : States → List (Barrier k) → Prop
  | _, [] => True
  | s, b :: bs => (∀ i, b.covers L i = true → s b.resource i = some b.before) ∧ Replays L (b.apply L s) bs

/-- a batch that replays from a world, changes a state with each barrier and covers no address twice -/
structure Batch.Sound (L : Layout) (w : World) (batch : Batch) : Prop where
  replays : ∀ k, Replays L (w k) (batch.get k)
  changing : ∀ k, ∀ b ∈ batch.get k, b.before ≠ b.after
  once : ∀ k n i, (batch.get k).countP (fun b => decide (b.resource = n) && b.covers L i) ≤ 1

/-! ## Exact differences -/

/-- the barrier takes address `i` of resource `n` from `s` to `s'` -/
def Barrier.takes (L : Layout) (n i : Nat) (s s' : ResourceState) (b : Barrier k) : Bool :=
  (decide (b.resource = n) && b.covers L i) && (decide (b.before = s) && decide (b.after = s'))

/-- the resource of the barrier exists, and its part fits it -/
def Barrier.Placed (L : Layout) (b : Barrier k) : Prop :=
  ∃ bounds, L k b.resource = some bounds ∧ ∀ p, b.part = some p → k.Inside bounds p

/-- the barriers are the exact difference of two states -/
structure Moves (L : Layout) (old new : States) (bs : List (Barrier k)) : Prop where
  same : ∀ n i, (old n i).isSome = (new n i).isSome
  placed : ∀ b ∈ bs, b.Placed L
  changing : ∀ b ∈ bs, b.before ≠ b.after
  count : ∀ n i s s',
    bs.countP (Barrier.takes L n i s s') = if old n i = some s ∧ new n i = some s' ∧ s ≠ s' then 1 else 0

namespace Moves

variable {L : Layout} {old new : States} {b : Barrier k} {bs cs : List (Barrier k)}

theorem takes_iff {n i : Nat} {s s' : ResourceState} :
    b.takes L n i s s' = true ↔ (b.resource = n ∧ b.covers L i = true) ∧ b.before = s ∧ b.after = s' := by
  simp [Barrier.takes]

/-- the order of the barriers does not matter -/
theorem perm (h : Moves L old new bs) (hp : bs.Perm cs) : Moves L old new cs where
  same := h.same
  placed := fun b hb => h.placed b (hp.mem_iff.2 hb)
  changing := fun b hb => h.changing b (hp.mem_iff.2 hb)
  count := fun n i s s' => by
    calc cs.countP (Barrier.takes L n i s s') = bs.countP (Barrier.takes L n i s s') := (hp.countP_eq _).symm
      _ = _ := h.count n i s s'

/-- a barrier goes from the old to the new state of each address it covers -/
theorem of_mem (h : Moves L old new bs) (hb : b ∈ bs) {i : Nat} (hi : b.covers L i = true) :
    old b.resource i = some b.before ∧ new b.resource i = some b.after := by
  have hpos : 0 < bs.countP (Barrier.takes L b.resource i b.before b.after) :=
    List.countP_pos_iff.2 ⟨b, hb, takes_iff.2 ⟨⟨rfl, hi⟩, rfl, rfl⟩⟩
  rw [h.count] at hpos
  by_contra hn
  rw [if_neg fun hc => hn ⟨hc.1, hc.2.1⟩] at hpos
  exact Nat.lt_irrefl 0 hpos

/-- an address whose state differs is covered -/
theorem exists_covers (h : Moves L old new bs) {n i : Nat} (hne : old n i ≠ new n i) :
    ∃ b ∈ bs, b.resource = n ∧ b.covers L i = true := by
  cases ho : old n i with
  | none =>
    have hs := h.same n i
    rw [ho] at hs hne
    cases hnw : new n i with
    | none => exact absurd hnw.symm hne
    | some s' =>
      rw [hnw] at hs
      cases hs
  | some s =>
    have hs := h.same n i
    rw [ho] at hs hne
    cases hnw : new n i with
    | none =>
      rw [hnw] at hs
      cases hs
    | some s' =>
      have hss : s ≠ s' := fun e => hne (by rw [hnw, e])
      have hc := h.count n i s s'
      rw [if_pos ⟨ho, hnw, hss⟩] at hc
      obtain ⟨b, hb, ht⟩ := List.countP_pos_iff.1 (Nat.lt_of_lt_of_eq Nat.one_pos hc.symm)
      exact ⟨b, hb, (takes_iff.1 ht).1⟩

/-- after the first barrier, the others are the exact difference of what is left -/
theorem tail (h : Moves L old new (b :: bs)) : Moves L (b.apply L old) new bs where
  same := fun n i => by
    unfold Barrier.apply
    split
    · rename_i hi
      obtain ⟨rfl, hi⟩ := hi
      rw [(h.of_mem List.mem_cons_self hi).2]
    · exact h.same n i
  placed := fun c hc => h.placed c (List.mem_cons_of_mem _ hc)
  changing := fun c hc => h.changing c (List.mem_cons_of_mem _ hc)
  count := fun n i s s' => by
    have hc := h.count n i s s'
    rw [List.countP_cons] at hc
    unfold Barrier.apply
    by_cases hi : b.resource = n ∧ b.covers L i = true
    · rw [if_pos hi]
      obtain ⟨hn, hi⟩ := hi
      obtain ⟨h1, h2⟩ := h.of_mem List.mem_cons_self hi
      rw [hn] at h1 h2
      have hcb := h.changing b List.mem_cons_self
      rw [h1, h2] at hc
      rw [h2]
      by_cases ht : b.before = s ∧ b.after = s'
      · have hss : s ≠ s' := fun e => hcb (by rw [ht.1, ht.2, e])
        rw [if_pos (takes_iff.2 ⟨⟨hn, hi⟩, ht⟩), if_pos ⟨by rw [ht.1], by rw [ht.2], hss⟩] at hc
        rw [if_neg fun e => hss ((Option.some.inj e.1).symm.trans (Option.some.inj e.2.1)), ← Nat.succ_inj]
        exact hc
      · rw [if_neg fun e => ht (takes_iff.1 e).2, Nat.add_zero,
          if_neg fun e => ht ⟨Option.some.inj e.1, Option.some.inj e.2.1⟩] at hc
        rw [hc, if_neg fun e => e.2.2 ((Option.some.inj e.1).symm.trans (Option.some.inj e.2.1))]
    · rw [if_neg hi]
      rwa [if_neg fun e => hi (takes_iff.1 e).1, Nat.add_zero] at hc

theorem eq_of_nil (h : Moves L old new ([] : List (Barrier k))) : old = new := by
  funext n i
  by_contra hne
  obtain ⟨b, hb, -⟩ := h.exists_covers hne
  cases hb

/-- **An exact difference replays**, in whatever order it is listed, and ends in the new states. -/
theorem replays (h : Moves L old new bs) : Replays L old bs ∧ bs.foldl (Barrier.apply L) old = new := by
  induction bs generalizing old with
  | nil => exact ⟨trivial, h.eq_of_nil⟩
  | cons b bs ih =>
    obtain ⟨h1, h2⟩ := ih h.tail
    exact ⟨⟨fun i hi => (h.of_mem List.mem_cons_self hi).1, h1⟩, h2⟩

/-- **An exact difference covers no address twice.** -/
theorem once (h : Moves L old new bs) (n i : Nat) :
    bs.countP (fun b => decide (b.resource = n) && b.covers L i) ≤ 1 := by
  cases ho : old n i with
  | none =>
    rw [List.countP_eq_zero.2]
    · exact Nat.zero_le 1
    · intro b hb
      simp only [Bool.and_eq_true, decide_eq_true_eq]
      rintro ⟨rfl, hi⟩
      rw [(h.of_mem hb hi).1] at ho
      cases ho
  | some s =>
    cases hnw : new n i with
    | none =>
      have hs := h.same n i
      rw [ho, hnw] at hs
      cases hs
    | some s' =>
      calc bs.countP (fun b => decide (b.resource = n) && b.covers L i)
          = bs.countP (Barrier.takes L n i s s') := by
            refine List.countP_congr fun b hb => ?_
            rw [takes_iff]
            simp only [Bool.and_eq_true, decide_eq_true_eq]
            constructor
            · rintro ⟨rfl, hi⟩
              obtain ⟨h1, h2⟩ := h.of_mem hb hi
              rw [ho] at h1
              rw [hnw] at h2
              exact ⟨⟨rfl, hi⟩, (Option.some.inj h1).symm, (Option.some.inj h2).symm⟩
            · exact And.left
        _ ≤ 1 := by
            rw [h.count]
            split
            · exact le_rfl
            · exact Nat.zero_le 1

/-- **An address whose state differs is covered by exactly one barrier,** -/
theorem countP_covers_of_ne (h : Moves L old new bs) {n i : Nat} (hne : old n i ≠ new n i) :
    bs.countP (fun b => decide (b.resource = n) && b.covers L i) = 1 := by
  obtain ⟨b, hb, hn, hi⟩ := h.exists_covers hne
  apply le_antisymm (h.once n i)
  refine List.countP_pos_iff.2 ⟨b, hb, ?_⟩
  rw [Bool.and_eq_true, decide_eq_true_eq]
  exact ⟨hn, hi⟩

/-- and one whose state is the same by none. -/
theorem countP_covers_of_eq (h : Moves L old new bs) {n i : Nat} (heq : old n i = new n i) :
    bs.countP (fun b => decide (b.resource = n) && b.covers L i) = 0 := by
  rw [List.countP_eq_zero]
  intro b hb hcovers
  rw [Bool.and_eq_true, decide_eq_true_eq] at hcovers
  obtain ⟨rfl, hi⟩ := hcovers
  obtain ⟨h1, h2⟩ := h.of_mem hb hi
  rw [heq, h2] at h1
  exact h.changing b hb (Option.some.inj h1).symm

end Moves

/-- a batch whose barriers of each kind are the exact difference to another world is sound and leads there -/
theorem Batch.sound_of_moves {L : Layout} {w w' : World} {batch : Batch}
    (h : ∀ k, Moves L (w k) (w' k) (batch.get k)) : batch.Sound L w ∧ w.apply L batch = w' :=
  ⟨⟨fun k => (h k).replays.1, fun k => (h k).changing, fun k => (h k).once⟩, funext fun k => (h k).replays.2⟩

end FrameGraph
