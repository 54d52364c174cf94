/-
The order the needed passes run in is the order they are declared in.

Every edge goes from an earlier to a later pass (`lt_of_mem_dependencyEdges`), so no edge enters the smallest remaining
pass: it is the one that is emitted next.

- `topologicalOrder_ascending`: an ascending list of nodes is emitted as it is.
- `resolveOrder_ascending`: the needed passes run in ascending order, and no cycle is ever found.
-/
import FrameGraph.Proofs.Conflicts
import FrameGraph.Proofs.Emission

namespace FrameGraph

/-- **Every edge goes from an earlier to a later pass.** -/
theorem lt_of_mem_dependencyEdges {passes : List Pass} {needed : List Nat} (hn : needed.Pairwise (· < ·)) {e : Edge}
    (he : e ∈ dependencyEdges passes needed) : e.1 < e.2 := (conflict_of_mem_dependencyEdges hn he).1

/-- ascending nodes whose edges go up are emitted as they are: no edge enters the first of them, and it is the smallest -/
theorem Greedy.eq_of_ascending {E : Nat → Nat → Prop} {rest out : List Nat} (h : Greedy E rest out)
    (hn : rest.Pairwise (· < ·)) (hup : ∀ i j, E i j → i < j) : out = rest := by
  have hfirst : ∀ (a : Nat) (as : List Nat), (a :: as).Pairwise (· < ·) → ∀ i ∈ a :: as, a ≤ i ∧ ¬ E i a := by
    intro a as has i hi
    have hle : a ≤ i := by
      rcases List.mem_cons.1 hi with rfl | hi
      · exact le_rfl
      · exact ((List.pairwise_cons.1 has).1 i hi).le
    exact ⟨hle, fun he => absurd (hup i a he) (Nat.not_lt.2 hle)⟩
  induction h with
  | @stop rest hstop =>
    cases rest with
    | nil => rfl
    | cons a rest =>
      obtain ⟨i, hi, he⟩ := hstop a List.mem_cons_self
      exact absurd he (hfirst a rest hn i hi).2
  | @emit rest out v hv _ hleast _ ih =>
    cases rest with
    | nil => exact (List.not_mem_nil hv).elim
    | cons a rest =>
      obtain rfl : v = a :=
        le_antisymm (hleast a List.mem_cons_self fun i hi => (hfirst a rest hn i hi).2) (hfirst a rest hn v hv).1
      rw [List.erase_cons_head] at ih
      rw [ih (List.pairwise_cons.1 hn).2]

/-- an ascending list of nodes whose edges go up is emitted as it is -/
theorem topologicalOrder_ascending {passCount : Nat} {nodes : List Nat} {edges : List Edge}
    (hn : nodes.Pairwise (· < ·)) (hlt : ∀ j ∈ nodes, j < passCount) (hup : ∀ e ∈ edges, e.1 < e.2) :
    topologicalOrder passCount nodes edges = .ok nodes := by
  obtain ⟨order, h, hg⟩ := topologicalOrder_greedy edges (hn.imp fun h => h.ne) hlt
  rw [h, hg.eq_of_ascending hn fun i j he => hup (i, j) he.1]

/-- **The needed passes run in the order they are declared in.** -/
theorem resolveOrder_ascending {passes : List Pass} {needed : List Nat} (hn : needed.Pairwise (· < ·))
    (hlt : ∀ j ∈ needed, j < passes.length) :
    resolveOrder passes.length needed (dependencyEdges passes needed) = .ok (needed, false) := by
  rw [resolveOrder, topologicalOrder_ascending hn hlt fun e he => lt_of_mem_dependencyEdges hn he]
  simp only [bind, Except.bind, if_true]
  rfl

end FrameGraph
