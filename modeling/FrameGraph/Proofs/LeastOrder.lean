/-
What the topological order is.

Edges count if they are between two different nodes of the list (`EdgeWithin`). A node is trapped if it is on a cycle of
such edges or can be reached from one (`Trapped`).

- `Greedy.not_mem_of_entered`, `Greedy.exists_entering`: the nodes that are left out are the largest set each of whose
  members is entered from the set.
- `exists_cycle_of_entered`: in such a set every node is trapped.
- `Greedy.eq_or_lex`: no order that respects the edges comes before the emitted one in lexicographic order.
- `topologicalOrder_least`: the order holds the nodes that are not trapped, each once and behind those with an edge to
  it. Without a cycle it is the least order of all nodes that respects the edges (`LeastOrder`); with one, the nodes run
  as given.
-/
import FrameGraph.Proofs.Emission

namespace FrameGraph

variable {E : Nat → Nat → Prop} {rest out : List Nat}

/-! ## Greedy orders -/

namespace Greedy

theorem subset (h : Greedy E rest out) : ∀ v ∈ out, v ∈ rest := by
  induction h with
  | stop _ => exact fun v hv => (List.not_mem_nil hv).elim
  | emit hv _ _ _ ih => exact List.forall_mem_cons.2 ⟨hv, fun w hw => List.mem_of_mem_erase (ih w hw)⟩

theorem nodup (h : Greedy E rest out) (hn : rest.Nodup) : out.Nodup := by
  induction h with
  | stop _ => exact List.nodup_nil
  | emit _ _ _ hout ih =>
    exact List.nodup_cons.2 ⟨fun hm => hn.not_mem_erase (hout.subset _ hm), ih (hn.erase _)⟩

/-- no edge goes from a later to an earlier node -/
theorem forward (h : Greedy E rest out) : out.Pairwise fun a b => ¬ E b a := by
  induction h with
  | stop _ => exact List.Pairwise.nil
  | emit _ hnone _ hout ih =>
    exact List.pairwise_cons.2 ⟨fun w hw => hnone w (List.mem_of_mem_erase (hout.subset w hw)), ih⟩

/-- nodes that are all entered from among themselves are never emitted -/
theorem not_mem_of_entered {B : Nat → Prop} (h : Greedy E rest out) (hn : rest.Nodup) (hB : ∀ v, B v → v ∈ rest)
    (hE : ∀ v, B v → ∃ i, B i ∧ E i v) : ∀ v ∈ out, ¬ B v := by
  induction h with
  | stop _ => exact fun v hv => (List.not_mem_nil hv).elim
  | @emit rest out v _ hnone _ _ ih =>
    have hv : ¬ B v := fun hb => by
      obtain ⟨i, hi, he⟩ := hE v hb
      exact hnone i (hB i hi) he
    refine List.forall_mem_cons.2 ⟨hv, ih (hn.erase v) fun w hw => hn.mem_erase_iff.2 ⟨?_, hB w hw⟩⟩
    rintro rfl
    exact hv hw

/-- a node that is left out is entered from another one that is -/
theorem exists_entering (h : Greedy E rest out) (hn : rest.Nodup) :
    ∀ v ∈ rest, v ∉ out → ∃ i ∈ rest, i ∉ out ∧ E i v := by
  induction h with
  | stop hstop =>
    intro v hv _
    obtain ⟨i, hi, he⟩ := hstop v hv
    exact ⟨i, hi, List.not_mem_nil, he⟩
  | @emit rest out v _ _ _ _ ih =>
    intro w hw hwout
    rw [List.mem_cons, not_or] at hwout
    obtain ⟨i, hi, hiout, he⟩ := ih (hn.erase v) w (hn.mem_erase_iff.2 ⟨hwout.1, hw⟩) hwout.2
    obtain ⟨hiv, hi⟩ := hn.mem_erase_iff.1 hi
    exact ⟨i, hi, List.not_mem_cons_of_ne_of_not_mem hiv hiout, he⟩

/-- **Every order that respects the edges is the emitted one or comes after it.** Its first node is entered from none, so
it is not below the node emitted first; if it is that node, the rest of the order is one of the remaining nodes. -/
theorem eq_or_lex (h : Greedy E rest out) (hE : ∀ i, ¬ E i i) {l : List Nat} (hp : l.Perm rest)
    (hl : l.Pairwise fun a b => ¬ E b a) : out = l ∨ List.Lex (· < ·) out l := by
  induction h generalizing l with
  | stop _ =>
    cases l with
    | nil => exact Or.inl rfl
    | cons a l => exact Or.inr .nil
  | @emit rest out v hv _ hleast _ ih =>
    cases l with
    | nil => exact absurd (hp.mem_iff.2 hv) List.not_mem_nil
    | cons a l =>
      obtain ⟨ha, htail⟩ := List.pairwise_cons.1 hl
      have hfree : ∀ i ∈ rest, ¬ E i a := by
        intro i hi
        rcases List.mem_cons.1 (hp.mem_iff.2 hi) with rfl | hi
        · exact hE i
        · exact ha i hi
      have hle : v ≤ a := hleast a (hp.mem_iff.1 List.mem_cons_self) hfree
      rcases hle.lt_or_eq with hlt | rfl
      · exact Or.inr (.rel hlt)
      · have hperm : l.Perm (rest.erase v) := by
          have := hp.erase v
          rwa [List.erase_cons_head] at this
        rcases ih hperm htail with e | hlex
        · exact Or.inl (congrArg (v :: ·) e)
        · exact Or.inr (.cons hlex)

end Greedy

/-! ## Cycles -/

/-- some edges form a cycle -/
def Cyclic (E : Nat → Nat → Prop) : Prop := ∃ c, Relation.TransGen E c c

/-- on a cycle, or reached from one -/
def Trapped (E : Nat → Nat → Prop) (v : Nat) : Prop :=
  ∃ c, Relation.TransGen E c c ∧ Relation.ReflTransGen E c v

/-- a trapped node is entered from a trapped one -/
theorem Trapped.exists_entering {v : Nat} (h : Trapped E v) : ∃ i, Trapped E i ∧ E i v := by
  obtain ⟨c, hc, hv⟩ := h
  rcases Relation.ReflTransGen.cases_tail hv with rfl | ⟨i, hi, he⟩
  · obtain ⟨i, hi, he⟩ := Relation.TransGen.tail'_iff.1 hc
    exact ⟨i, ⟨v, hc, hi⟩, he⟩
  · exact ⟨i, ⟨c, hc, hi⟩, he⟩

/-- **If every node of a list is entered from the list, all of them are trapped.** Walking backwards from a node for ever,
one comes to some node twice. -/
theorem trapped_of_entered {S : List Nat} (h : ∀ v ∈ S, ∃ i ∈ S, E i v) : ∀ v ∈ S, Trapped E v := by
  intro v hv
  choose! before hmem hstep using h
  let walk : Nat → Nat := fun n => before^[n] v
  have hwalk : ∀ n, walk n ∈ S := by
    intro n
    induction n with
    | zero => exact hv
    | succ n ih =>
      have e : walk (n + 1) = before (walk n) := Function.iterate_succ_apply' before n v
      rw [e]
      exact hmem _ ih
  have hedge : ∀ n, E (walk (n + 1)) (walk n) := by
    intro n
    have e : walk (n + 1) = before (walk n) := Function.iterate_succ_apply' before n v
    rw [e]
    exact hstep _ (hwalk n)
  have hpath : ∀ m d, Relation.ReflTransGen E (walk (m + d)) (walk m) := by
    intro m d
    induction d with
    | zero => exact Relation.ReflTransGen.refl
    | succ d ih => exact Relation.ReflTransGen.head (hedge (m + d)) ih
  obtain ⟨m, n, hlt, hmn⟩ : ∃ m n, m < n ∧ walk m = walk n := by
    obtain ⟨m, n, hne, e⟩ := Finite.exists_ne_map_eq_of_infinite fun n => (⟨walk n, hwalk n⟩ : {i // i ∈ S})
    have e : walk m = walk n := congrArg Subtype.val e
    rcases Nat.lt_or_gt_of_ne hne with hlt | hlt
    · exact ⟨m, n, hlt, e⟩
    · exact ⟨n, m, hlt, e.symm⟩
  refine ⟨walk m, ?_, ?_⟩
  · obtain ⟨d, rfl⟩ := Nat.exists_eq_add_of_lt hlt
    have hlast := Relation.TransGen.tail' (hpath (m + 1) d) (hedge m)
    rwa [show m + 1 + d = m + d + 1 by omega, ← hmn] at hlast
  · have := hpath 0 m
    rwa [Nat.zero_add] at this

/-- **The nodes left out are the trapped ones.** -/
theorem Greedy.mem_iff {nodes : List Nat} (h : Greedy E nodes out) (hn : nodes.Nodup)
    (hE : ∀ i j, E i j → j ∈ nodes) {v : Nat} :
    v ∈ out ↔ v ∈ nodes ∧ ¬ Trapped E v := by
  constructor
  · intro hv
    refine ⟨h.subset v hv, h.not_mem_of_entered hn (fun w hw => ?_) (fun w hw => hw.exists_entering) v hv⟩
    obtain ⟨i, -, he⟩ := hw.exists_entering
    exact hE i w he
  · rintro ⟨hv, hfree⟩
    by_contra hout
    refine hfree (trapped_of_entered (S := nodes.filter (· ∉ out)) (fun w hw => ?_) v ?_)
    · simp only [List.mem_filter, decide_eq_true_eq] at hw ⊢
      obtain ⟨i, hi, hiout, he⟩ := h.exists_entering hn w hw.1 hw.2
      exact ⟨i, ⟨hi, hiout⟩, he⟩
    · exact List.mem_filter.2 ⟨hv, decide_eq_true hout⟩

/-! ## The order -/

/-- what is emitted of some nodes: those that are not trapped, each once and no edge going backwards; if there is no cycle
these are all nodes, in the lexicographically smallest order that respects the edges -/
structure LeastOrder (E : Nat → Nat → Prop) (nodes order : List Nat) : Prop where
  once : order.Nodup
  emitted : ∀ v, v ∈ order ↔ v ∈ nodes ∧ ¬ Trapped E v
  forward : order.Pairwise fun a b => ¬ E b a
  all : ¬ Cyclic E → order.Perm nodes
  least : ¬ Cyclic E → ∀ l, l.Perm nodes → (l.Pairwise fun a b => ¬ E b a) → order = l ∨ List.Lex (· < ·) order l

theorem Greedy.leastOrder {nodes : List Nat} (h : Greedy E nodes out) (hn : nodes.Nodup)
    (hE : ∀ i j, E i j → j ∈ nodes ∧ i ≠ j) : LeastOrder E nodes out where
  once := h.nodup hn
  emitted := fun _ => h.mem_iff hn fun i j he => (hE i j he).1
  forward := h.forward
  all := fun hacyclic => by
    refine (List.perm_ext_iff_of_nodup (h.nodup hn) hn).2 fun v => ?_
    rw [h.mem_iff hn fun i j he => (hE i j he).1, and_iff_left_iff_imp]
    rintro - ⟨c, hc, -⟩
    exact hacyclic ⟨c, hc⟩
  least := fun _ _ hp hl => h.eq_or_lex (fun i he => (hE i i he).2 rfl) hp hl

/-- a cycle through nodes of the list keeps some of them out -/
theorem LeastOrder.length_eq_iff {nodes order : List Nat} (h : LeastOrder E nodes order)
    (hE : ∀ i j, E i j → j ∈ nodes) : order.length = nodes.length ↔ ¬ Cyclic E := by
  constructor
  · rintro hlen ⟨c, hc⟩
    have hmem : c ∈ nodes := by
      obtain ⟨i, -, he⟩ := Relation.TransGen.tail'_iff.1 hc
      exact hE i c he
    have hsub : order ⊆ nodes := fun v hv => ((h.emitted v).1 hv).1
    have hperm : order.Perm nodes := (List.subperm_of_subset h.once hsub).perm_of_length_le hlen.ge
    exact ((h.emitted c).1 (hperm.mem_iff.2 hmem)).2 ⟨c, hc, .refl⟩
  · exact fun hacyclic => (h.all hacyclic).length_eq

/-- **The sort emits what can be emitted, in the least order.** It goes through for every list of passes without
repetitions and for all edges. The passes then run in the order found, or as given if there is a cycle. -/
theorem topologicalOrder_least {passCount : Nat} {nodes : List Nat} (edges : List Edge) (hn : nodes.Nodup)
    (hlt : ∀ j ∈ nodes, j < passCount) :
    ∃ order, topologicalOrder passCount nodes edges = .ok order ∧ LeastOrder (EdgeWithin nodes edges) nodes order ∧
      ∃ ordered fallback, resolveOrder passCount nodes edges = .ok (ordered, fallback) ∧ ordered.Perm nodes ∧
        (fallback = true ↔ Cyclic (EdgeWithin nodes edges)) ∧ ordered = if fallback then nodes else order := by
  obtain ⟨order, h, hg⟩ := topologicalOrder_greedy edges hn hlt
  have hleast := hg.leastOrder hn fun i j he => ⟨he.2.1.2, he.2.2⟩
  have hlen := hleast.length_eq_iff fun i j he => he.2.1.2
  refine ⟨order, h, hleast, ?_⟩
  by_cases hcyclic : Cyclic (EdgeWithin nodes edges)
  · refine ⟨nodes, true, ?_, .refl _, iff_of_true rfl hcyclic, rfl⟩
    rw [resolveOrder, h]
    simp only [bind, Except.bind, if_neg fun e => hlen.1 e hcyclic]
    rfl
  · refine ⟨order, false, ?_, hleast.all hcyclic, iff_of_false Bool.false_ne_true hcyclic, rfl⟩
    rw [resolveOrder, h]
    simp only [bind, Except.bind, if_pos (hlen.2 hcyclic)]
    rfl

/-- nodes one and two wait for each other and three waits for two; the others are emitted, four before zero -/
theorem topologicalOrder_least_cyclic :
    let nodes := [3, 0, 2, 4, 1]
    let edges := [(1, 2), (2, 1), (2, 3), (4, 0), (4, 0), (0, 0), (9, 4), (0, 7)]
    topologicalOrder 5 nodes edges = .ok [4, 0] ∧ LeastOrder (EdgeWithin nodes edges) nodes [4, 0] ∧
      ∃ ordered fallback, resolveOrder 5 nodes edges = .ok (ordered, fallback) ∧ ordered.Perm nodes ∧
        (fallback = true ↔ Cyclic (EdgeWithin nodes edges)) ∧ ordered = if fallback then nodes else [4, 0] := by
  intro nodes edges
  have hn : nodes.Nodup := by decide
  have hlt : ∀ j ∈ nodes, j < 5 := by decide
  obtain ⟨order, h, hleast⟩ := topologicalOrder_least edges hn hlt
  have horder : topologicalOrder 5 nodes edges = .ok [4, 0] := by decide +kernel
  obtain rfl : order = [4, 0] := Except.ok.inj (h.symm.trans horder)
  exact ⟨horder, hleast⟩

end FrameGraph
