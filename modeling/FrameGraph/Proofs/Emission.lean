/-
Emitting nodes one after another, each time the smallest that is ready.

Before each round (`Emitting`) a degree counts the edges from the nodes that are not emitted yet, and each remaining node
without such edges is ready once. `Greedy` says without degrees what the rounds lead to: each time the smallest remaining
node that no edge from a remaining node enters, until there is none.

- `release_count`: releasing takes one from a degree for each edge, and a node becomes ready at the last of its releases.
- `Emitting.start`: the invariant holds at first.
- `Emitting.step`: whichever ready node is emitted, no degree is empty when it is taken from, and the invariant holds again.
- `topologicalOrder_greedy`: so the sort goes through and emits its nodes greedily. Edges count if they are between two
  different nodes of the list (`EdgeWithin`).
-/
import FrameGraph.Plan.Order
import Mathlib.Tactic

namespace FrameGraph

/-! ## Releasing -/

theorem getD_set {degrees : List Nat} {v : Nat} (hv : v < degrees.length) (d j : Nat) :
    (degrees.set v d)[j]?.getD 0 = if j = v then d else degrees[j]?.getD 0 := by
  by_cases hj : j = v
  · rw [hj, List.getElem?_set_self hv, if_pos rfl]
    rfl
  · rw [List.getElem?_set_ne (Ne.symm hj), if_neg hj]

/-- a node becomes ready once, at the last of its releases -/
theorem count_released {vs ready : List Nat} {v n : Nat} (h : vs.count v + 1 ≤ n) :
    (if n - 1 = 0 then v :: ready else ready).count v + (if v ∈ vs ∧ n - 1 = vs.count v then 1 else 0) =
      ready.count v + if n = vs.count v + 1 then 1 else 0 := by
  by_cases hn : n - 1 = 0
  · have hnot : v ∉ vs := fun hm => by
      have := List.count_pos_iff.2 hm
      omega
    have hzero : vs.count v = 0 := List.count_eq_zero_of_not_mem hnot
    rw [if_pos hn, if_neg fun e => hnot e.1, if_pos (by omega), List.count_cons_self]
  · rw [if_neg hn]
    refine congrArg _ (if_congr ⟨fun e => by omega, fun e => ⟨?_, by omega⟩⟩ rfl rfl)
    exact List.count_pos_iff.1 (by omega)

/-- releasing takes one from a degree for each time a node is listed, and the nodes left with none become ready once -/
theorem release_count {vs degrees ready : List Nat} (h : ∀ j, vs.count j ≤ degrees[j]?.getD 0) :
    ∃ degrees' ready', release vs degrees ready = .ok (degrees', ready') ∧
      (∀ j, degrees'[j]?.getD 0 = degrees[j]?.getD 0 - vs.count j) ∧
      ∀ j, ready'.count j = ready.count j + if j ∈ vs ∧ degrees[j]?.getD 0 = vs.count j then 1 else 0 := by
  induction vs generalizing degrees ready with
  | nil => exact ⟨degrees, ready, rfl, fun j => rfl, fun j => by simp⟩
  | cons v vs ih =>
    let d := degrees[v]?.getD 0 - 1
    have hv : vs.count v + 1 ≤ degrees[v]?.getD 0 := by
      have := h v
      rwa [List.count_cons_self] at this
    have hlen : v < degrees.length := by
      by_contra hlen
      rw [List.getElem?_eq_none (Nat.le_of_not_lt hlen)] at hv
      exact Nat.not_succ_le_zero _ hv
    have hset := getD_set hlen d
    have hle : ∀ j, vs.count j ≤ (degrees.set v d)[j]?.getD 0 := by
      intro j
      rw [hset]
      split
      · rename_i hj
        rw [hj]
        exact Nat.le_sub_of_add_le hv
      · rename_i hj
        have := h j
        rwa [List.count_cons_of_ne (Ne.symm hj)] at this
    obtain ⟨degrees', ready', e, hdeg, hready⟩ := @ih (degrees.set v d) (if d = 0 then v :: ready else ready) hle
    refine ⟨degrees', ready', ?_, fun j => ?_, fun j => ?_⟩
    · unfold release
      rw [checkedSub_eq_ok (Nat.le_of_add_left_le hv)]
      exact e
    · rw [hdeg, hset]
      split
      · rename_i hj
        rw [hj, List.count_cons_self, Nat.add_comm, Nat.sub_add_eq]
      · rename_i hj
        rw [List.count_cons_of_ne (Ne.symm hj)]
    · rw [hready, hset]
      by_cases hj : j = v
      · subst hj
        rw [if_pos rfl, count_released hv, List.count_cons_self]
        exact congrArg _ (if_congr (and_iff_right List.mem_cons_self).symm rfl rfl)
      · rw [if_neg hj, List.count_cons_of_ne (Ne.symm hj)]
        have hready : (if d = 0 then v :: ready else ready).count j = ready.count j := by
          split
          · exact List.count_cons_of_ne (Ne.symm hj)
          · rfl
        rw [hready]
        simp [hj]

/-! ## The invariant -/

/-- the nodes a node leads to, once for each edge -/
def successors (used : List Edge) (i : Nat) : List Nat := (used.filter (·.1 == i)).map Prod.snd

/-- what holds before each round: `rest` are the nodes not emitted yet -/
structure Emitting (used : List Edge) (rest degrees ready : List Nat) : Prop where
  nodup : rest.Nodup
  proper : ∀ e ∈ used, e.1 ≠ e.2
  closed : ∀ e ∈ used, e.1 ∈ rest → e.2 ∈ rest
  degree : ∀ j, degrees[j]?.getD 0 = used.countP fun e => e.2 == j && rest.contains e.1
  ready : ∀ j, ready.count j = if j ∈ rest ∧ degrees[j]?.getD 0 = 0 then 1 else 0

theorem count_successors (used : List Edge) (v j : Nat) :
    (successors used v).count j = used.countP fun e => e.2 == j && e.1 == v := by
  rw [successors, List.count, List.countP_map, List.countP_filter]
  rfl

namespace Emitting

variable {used : List Edge} {nodes rest degrees ready : List Nat} {v j : Nat}

/-- before the first round the degrees count all edges, and the nodes without any are ready -/
theorem start {passCount : Nat} (hn : nodes.Nodup) (hlt : ∀ j ∈ nodes, j < passCount)
    (hused : ∀ e ∈ used, e.1 ∈ nodes ∧ e.2 ∈ nodes ∧ e.1 ≠ e.2)
    (hd : degrees = (List.range passCount).map fun j => used.countP (·.2 == j)) :
    Emitting used nodes degrees (nodes.filter fun j => degrees[j]? == some 0) := by
  have hdeg : ∀ j, degrees[j]?.getD 0 = used.countP fun e => e.2 == j && nodes.contains e.1 := by
    intro j
    have hcount : used.countP (·.2 == j) = used.countP fun e => e.2 == j && nodes.contains e.1 :=
      List.countP_congr fun e he => by simp [(hused e he).1]
    rw [hd, List.getElem?_map]
    by_cases hj : j < passCount
    · rw [List.getElem?_range hj, ← hcount]
      rfl
    · rw [List.getElem?_eq_none (by rw [List.length_range]; omega), eq_comm, Option.map_none]
      refine List.countP_eq_zero.2 fun e he hej => hj ?_
      simp only [Bool.and_eq_true, beq_iff_eq] at hej
      exact hej.1 ▸ hlt _ (hused e he).2.1
  refine ⟨hn, fun e he => (hused e he).2.2, fun e he _ => (hused e he).2.1, hdeg, fun j => ?_⟩
  by_cases hj : j ∈ nodes
  · have hget : degrees[j]? = some (degrees[j]?.getD 0) := by
      rw [hd, List.getElem?_map, List.getElem?_range (hlt j hj)]
      rfl
    by_cases hz : degrees[j]?.getD 0 = 0
    · rw [if_pos ⟨hj, hz⟩, List.count_filter (by rw [hget, hz]; rfl), List.count_eq_one_of_mem hn hj]
    · rw [if_neg fun e => hz e.2]
      refine List.count_eq_zero_of_not_mem fun hm => hz ?_
      have := (List.mem_filter.1 hm).2
      rw [hget, beq_iff_eq] at this
      exact Option.some.inj this
  · rw [if_neg fun e => hj e.1]
    exact List.count_eq_zero_of_not_mem fun hm => hj (List.mem_filter.1 hm).1

/-- a remaining node is ready if no edge from a remaining node enters it -/
theorem mem_ready_iff (h : Emitting used rest degrees ready) :
    j ∈ ready ↔ j ∈ rest ∧ ∀ i ∈ rest, (i, j) ∉ used := by
  have hdeg : degrees[j]?.getD 0 = 0 ↔ ∀ i ∈ rest, (i, j) ∉ used := by
    rw [h.degree, List.countP_eq_zero]
    simp only [Bool.and_eq_true, beq_iff_eq, List.contains_iff_mem]
    constructor
    · intro hno i hi he
      exact hno (i, j) he ⟨rfl, hi⟩
    · rintro hno ⟨i, _⟩ he ⟨rfl, hi⟩
      exact hno i hi he
  rw [← hdeg, ← List.count_pos_iff, h.ready]
  split
  · rename_i hyes
    exact ⟨fun _ => hyes, fun _ => Nat.one_pos⟩
  · rename_i hno
    exact ⟨fun hlt => absurd hlt (Nat.lt_irrefl 0), fun hyes => absurd hyes hno⟩

/-- the degrees of a round are those of the next one and the edges from the node emitted -/
theorem degree_erase (h : Emitting used rest degrees ready) (hv : v ∈ rest) (j : Nat) :
    degrees[j]?.getD 0 =
      (used.countP fun e => e.2 == j && (rest.erase v).contains e.1) + (successors used v).count j := by
  rw [h.degree, count_successors]
  have hnot : v ∉ rest.erase v := h.nodup.not_mem_erase
  clear h
  induction used with
  | nil => rfl
  | cons e used ih =>
    rw [List.countP_cons, List.countP_cons, List.countP_cons, ih]
    by_cases he : e.1 = v
    · by_cases hj : e.2 = j <;> simp [he, hj, hv, hnot]
      omega
    · by_cases hj : e.2 = j <;> simp [he, hj, List.mem_erase_of_ne]
      omega

/-- **One round emits a ready node,** whichever it is, and takes from no degree that is empty. -/
theorem step (h : Emitting used rest degrees ready) (hv : v ∈ ready) :
    ∃ degrees' ready', release (successors used v) degrees (ready.erase v) = .ok (degrees', ready') ∧
      Emitting used (rest.erase v) degrees' ready' := by
  obtain ⟨hvr, hnone⟩ := h.mem_ready_iff.1 hv
  have hmem : ∀ i, i ∈ rest.erase v ↔ i ≠ v ∧ i ∈ rest := fun i => h.nodup.mem_erase_iff
  -- no edge from a remaining node enters the node emitted
  have hclosed : ∀ e ∈ used, e.1 ∈ rest → e.2 ∈ rest.erase v := by
    rintro ⟨i, j⟩ he hi
    refine (hmem j).2 ⟨?_, h.closed _ he hi⟩
    rintro rfl
    exact hnone i hi he
  have hsucc : ∀ j ∈ successors used v, j ∈ rest.erase v := by
    intro j hj
    obtain ⟨e, he, rfl⟩ := List.mem_map.1 hj
    obtain ⟨he, hev⟩ := List.mem_filter.1 he
    rw [beq_iff_eq] at hev
    exact hclosed e he (hev ▸ hvr)
  have hsplit := h.degree_erase hvr
  obtain ⟨degrees', ready', e, hdeg, hready⟩ :=
    @release_count (successors used v) degrees (ready.erase v) fun j => hsplit j ▸ Nat.le_add_left _ _
  have hdeg' : ∀ j, degrees'[j]?.getD 0 = used.countP fun e => e.2 == j && (rest.erase v).contains e.1 := by
    intro j
    rw [hdeg, hsplit, Nat.add_sub_cancel]
  refine ⟨degrees', ready', e, h.nodup.erase v, h.proper, fun e he hm => ?_, hdeg', fun j => ?_⟩
  · exact hclosed e he ((hmem _).1 hm).2
  · rw [hready]
    by_cases hj : j = v
    · subst hj
      have hone : ready.count j - 1 = 0 := by
        rw [h.ready]
        split <;> rfl
      have hnot : j ∉ rest.erase j := fun hm => ((hmem j).1 hm).1 rfl
      rw [List.count_erase_self, hone, if_neg fun e => hnot (hsucc _ e.1), if_neg fun e => hnot e.1]
    · rw [List.count_erase_of_ne hj, h.ready, hdeg', hsplit]
      simp only [hmem, ne_eq, hj, not_false_eq_true, true_and]
      -- a node with an edge from the one emitted was not ready before
      by_cases hs : j ∈ successors used v
      · have hpos : 0 < (successors used v).count j := List.count_pos_iff.2 hs
        have h1 : ¬ (used.countP (fun e => e.2 == j && (rest.erase v).contains e.1)) + (successors used v).count j = 0 := by
          omega
        rw [if_neg fun e => h1 e.2, Nat.zero_add]
        refine if_congr ⟨fun e => ⟨((hmem j).1 (hsucc j hs)).2, ?_⟩, fun e => ⟨hs, ?_⟩⟩ rfl rfl
        · exact Nat.add_eq_right.1 e.2
        · exact Nat.add_eq_right.2 e.2
      · have hzero : (successors used v).count j = 0 := List.count_eq_zero_of_not_mem hs
        have hno : ¬ (j ∈ successors used v ∧
            (used.countP fun e => e.2 == j && (rest.erase v).contains e.1) + 0 = 0) := fun e => hs e.1
        rw [hzero, if_neg hno, Nat.add_zero, Nat.add_zero]

end Emitting

/-! ## Draining -/

/-- what is emitted of some nodes: each time the smallest that no remaining node leads to, until there is none -/
inductive Greedy (E : Nat → Nat → Prop) : List Nat → List Nat → Prop
  | stop {rest : List Nat} : (∀ v ∈ rest, ∃ i ∈ rest, E i v) → Greedy E rest []
  | emit {rest out : List Nat} {v : Nat} : v ∈ rest → (∀ i ∈ rest, ¬ E i v) →
    (∀ w ∈ rest, (∀ i ∈ rest, ¬ E i w) → v ≤ w) → Greedy E (rest.erase v) out → Greedy E rest (v :: out)

theorem drain_nil (next : Nat → List Nat) (degrees : List Nat) : drain next degrees [] = .ok [] := by
  unfold drain
  rfl

theorem drain_of_min {next : Nat → List Nat} {degrees ready degrees' ready' : List Nat} {v : Nat}
    (hm : ready.min? = some v) (hr : release (next v) degrees (ready.erase v) = .ok (degrees', ready')) :
    drain next degrees ready = (drain next degrees' ready').map (v :: ·) := by
  rw [drain]
  split
  · rename_i hnone
    rw [hm] at hnone
    cases hnone
  · rename_i w hw
    rw [hm] at hw
    cases hw
    split
    · rename_i herr
      rw [hr] at herr
      cases herr
    · rename_i hok
      rw [hr] at hok
      cases hok
      rfl

/-- **Draining goes through and emits the nodes greedily.** -/
theorem drain_greedy {used : List Edge} {rest degrees ready : List Nat} (h : Emitting used rest degrees ready) :
    ∃ out, drain (successors used) degrees ready = .ok out ∧ Greedy (fun i j => (i, j) ∈ used) rest out := by
  induction hlen : rest.length generalizing rest degrees ready with
  | zero =>
    have hrest : rest = [] := List.eq_nil_of_length_eq_zero hlen
    subst hrest
    have hready : ready = [] := List.eq_nil_iff_forall_not_mem.2 fun j hj => List.not_mem_nil (h.mem_ready_iff.1 hj).1
    subst hready
    exact ⟨[], drain_nil _ _, .stop fun v hv => (List.not_mem_nil hv).elim⟩
  | succ n ih =>
    cases hm : ready.min? with
    | none =>
      obtain rfl : ready = [] := List.min?_eq_none_iff.1 hm
      refine ⟨[], drain_nil _ _, .stop fun v hv => ?_⟩
      by_contra hno
      push Not at hno
      exact List.not_mem_nil (h.mem_ready_iff.2 ⟨hv, hno⟩)
    | some v =>
      obtain ⟨hv, hleast⟩ := List.min?_eq_some_iff.1 hm
      obtain ⟨hvr, hnone⟩ := h.mem_ready_iff.1 hv
      obtain ⟨degrees', ready', hr, h'⟩ := h.step hv
      obtain ⟨out, hd, hg⟩ := ih h' (by rw [List.length_erase_of_mem hvr, hlen, Nat.add_sub_cancel])
      refine ⟨v :: out, ?_, .emit hvr hnone (fun w hw hwn => hleast w (h.mem_ready_iff.2 ⟨hw, hwn⟩)) hg⟩
      rw [drain_of_min hm hr, hd]
      rfl

/-- an edge between two different nodes of a list -/
def EdgeWithin (nodes : List Nat) (edges : List Edge) (i j : Nat) : Prop :=
  (i, j) ∈ edges ∧ (i ∈ nodes ∧ j ∈ nodes) ∧ i ≠ j

/-- **The sort of passes listed once goes through and emits them greedily.** -/
theorem topologicalOrder_greedy {passCount : Nat} {nodes : List Nat} (edges : List Edge) (hn : nodes.Nodup)
    (hlt : ∀ j ∈ nodes, j < passCount) :
    ∃ order, topologicalOrder passCount nodes edges = .ok order ∧ Greedy (EdgeWithin nodes edges) nodes order := by
  let used := edges.filter fun e => nodes.contains e.1 && nodes.contains e.2 && e.1 != e.2
  have hused : ∀ i j, (i, j) ∈ used ↔ EdgeWithin nodes edges i j := by
    intro i j
    simp only [used, EdgeWithin, List.mem_filter, Bool.and_eq_true, List.contains_iff_mem, bne_iff_ne]
  have hwithin : ∀ e ∈ used, e.1 ∈ nodes ∧ e.2 ∈ nodes ∧ e.1 ≠ e.2 := by
    intro e he
    obtain ⟨-, ⟨h1, h2⟩, hne⟩ := (hused e.1 e.2).1 he
    exact ⟨h1, h2, hne⟩
  obtain ⟨order, hd, hg⟩ := drain_greedy (Emitting.start hn hlt hwithin rfl)
  have hE : (fun i j => (i, j) ∈ used) = EdgeWithin nodes edges := by
    funext i j
    exact propext (hused i j)
  refine ⟨order, ?_, hE ▸ hg⟩
  unfold topologicalOrder
  rw [if_pos (List.all_eq_true.2 fun j hj => decide_eq_true (hlt j hj))]
  exact hd

end FrameGraph
