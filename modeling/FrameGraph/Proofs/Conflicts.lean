/-
Which passes the edges order.

Two passes conflict if they share a resource that at least one of them writes (`ConflictAt`). A resource remembers its last
writer and the readers since; every pass walked before that is ordered before one of these (`Hazard.Accounts`).

- `Hazard.Accounts.touch`: a pass that conflicts with one walked before it is ordered behind it when it touches the
  resource, directly or through the last writer.
- `conflict_of_mem_resourceEdges`: edges are between conflicting passes, from the earlier to the later one.
- `transGen_of_conflict`: conflicting passes are ordered, by an edge or by a path.
- `dependencyEdges_exact`: the same for the edges of all resources, which are listed in ascending order.
-/
import FrameGraph.Plan.Needed
import FrameGraph.Plan.Order
import FrameGraph.Proofs.Sorting

namespace FrameGraph

variable {passes : List Pass} {key : Key} {i j : Nat}

/-! ## Conflicts -/

/-- pass `i` writes the resource -/
def WritesAt (passes : List Pass) (key : Key) (i : Nat) : Prop := ∃ p, passes[i]? = some p ∧ key ∈ p.plan.writes

/-- pass `i` reads or writes the resource -/
def TouchesAt (passes : List Pass) (key : Key) (i : Nat) : Prop :=
  ∃ p, passes[i]? = some p ∧ (key ∈ p.plan.writes ∨ key ∈ p.plan.reads)

/-- both passes touch the resource, and at least one of them writes it -/
def ConflictThrough (passes : List Pass) (key : Key) (i j : Nat) : Prop :=
  (TouchesAt passes key i ∧ TouchesAt passes key j) ∧ (WritesAt passes key i ∨ WritesAt passes key j)

/-- the passes share a resource that at least one of them writes -/
def ConflictAt (passes : List Pass) (i j : Nat) : Prop := ∃ key, ConflictThrough passes key i j

theorem WritesAt.touches (h : WritesAt passes key i) : TouchesAt passes key i :=
  let ⟨p, hp, hw⟩ := h
  ⟨p, hp, Or.inl hw⟩

/-- a pass that does not touch the resource leaves what is remembered of it, the others add to it -/
theorem resourceEdges_cons (passes : List Pass) (key : Key) (h : Hazard) (i : Nat) (rest : List Nat) :
    (¬ TouchesAt passes key i ∧ resourceEdges passes key h (i :: rest) = resourceEdges passes key h rest) ∨
    (TouchesAt passes key i ∧ ∃ writes, (writes = true ↔ WritesAt passes key i) ∧
      resourceEdges passes key h (i :: rest) = (h.touch i writes).1 ++ resourceEdges passes key (h.touch i writes).2 rest) := by
  rw [resourceEdges]
  cases hp : passes[i]? with
  | none =>
    refine Or.inl ⟨?_, rfl⟩
    rintro ⟨p, hp', -⟩
    rw [hp] at hp'
    cases hp'
  | some p =>
    have htouches : TouchesAt passes key i ↔ (p.plan.writes.contains key || p.plan.reads.contains key) = true := by
      simp [TouchesAt, hp]
    simp only
    split
    · rename_i hyes
      refine Or.inr ⟨htouches.2 hyes, _, ?_, rfl⟩
      simp [WritesAt, hp]
    · rename_i hno
      exact Or.inl ⟨fun h => hno (htouches.1 h), rfl⟩

/-! ## What a resource remembers -/

namespace Hazard

variable {E : Nat → Nat → Prop} {walked : List Nat} {h : Hazard} {writes : Bool}

/-- a pass comes after the last writer, and if it writes after the readers since -/
theorem mem_touch {e : Edge} : e ∈ (h.touch j writes).1 ↔
    (e.2 = j ∧ e.1 ≠ j) ∧ (h.lastWriter = some e.1 ∨ writes = true ∧ e.1 ∈ h.readers) := by
  have hmap : ∀ l : List Nat, e ∈ (l.filter (· ≠ j)).map (·, j) ↔ (e.2 = j ∧ e.1 ≠ j) ∧ e.1 ∈ l := by
    intro l
    simp only [List.mem_map, List.mem_filter, decide_eq_true_eq]
    constructor
    · rintro ⟨i, ⟨hi, hij⟩, rfl⟩
      exact ⟨⟨rfl, hij⟩, hi⟩
    · rintro ⟨⟨rfl, hij⟩, hi⟩
      exact ⟨e.1, ⟨hi, hij⟩, rfl⟩
  have hlast : e.1 ∈ h.lastWriter.toList ↔ h.lastWriter = some e.1 := Option.mem_toList
  cases writes with
  | true => rw [touch, if_pos rfl, List.mem_append, hmap, hmap, hlast, ← and_or_left, and_iff_right rfl]
  | false =>
    rw [touch, if_neg Bool.false_ne_true, hmap, hlast, or_iff_left]
    exact fun hyes => Bool.false_ne_true hyes.1

/-- what is remembered of the passes walked: each of them is ordered before what is remembered -/
structure Accounts (passes : List Pass) (key : Key) (E : Nat → Nat → Prop) (walked : List Nat) (h : Hazard) : Prop where
  writer : ∀ w, h.lastWriter = some w → w ∈ walked ∧ WritesAt passes key w
  reader : ∀ r ∈ h.readers, r ∈ walked ∧ TouchesAt passes key r
  /-- nothing a pass has written is forgotten but for a later writer -/
  written : ∀ i ∈ walked, WritesAt passes key i → ∃ w, h.lastWriter = some w ∧ Relation.ReflTransGen E i w
  /-- a pass that has touched the resource is remembered, or ordered before the last writer -/
  touched : ∀ i ∈ walked, TouchesAt passes key i →
    i ∈ h.readers ∨ ∃ w, h.lastWriter = some w ∧ Relation.ReflTransGen E i w

namespace Accounts

theorem start : Accounts passes key E [] {} :=
  ⟨fun _ hw => (by cases hw), fun _ hr => (List.not_mem_nil hr).elim, fun _ hi => (List.not_mem_nil hi).elim,
    fun _ hi => (List.not_mem_nil hi).elim⟩

/-- a pass that does not touch the resource changes nothing -/
theorem skip (ha : Accounts passes key E walked h) (hj : ¬ TouchesAt passes key j) :
    Accounts passes key E (walked ++ [j]) h where
  writer := fun w hw => ⟨List.mem_append_left _ (ha.writer w hw).1, (ha.writer w hw).2⟩
  reader := fun r hr => ⟨List.mem_append_left _ (ha.reader r hr).1, (ha.reader r hr).2⟩
  written := fun i hi hw => by
    rcases List.mem_append.1 hi with hi | hi
    · exact ha.written i hi hw
    · exact absurd (List.mem_singleton.1 hi ▸ hw.touches) hj
  touched := fun i hi ht => by
    rcases List.mem_append.1 hi with hi | hi
    · exact ha.touched i hi ht
    · exact absurd (List.mem_singleton.1 hi ▸ ht) hj

/-- **A pass is ordered behind each pass walked that it conflicts with.** -/
theorem transGen (ha : Accounts passes key E walked h) (hj : j ∉ walked) (hw : writes = true ↔ WritesAt passes key j)
    (hE : ∀ e ∈ (h.touch j writes).1, E e.1 e.2) (hi : i ∈ walked) (hc : ConflictThrough passes key i j) :
    Relation.TransGen E i j := by
  have hne : ∀ m ∈ walked, m ≠ j := fun m hm e => hj (e ▸ hm)
  have hwriter : ∀ w, h.lastWriter = some w → Relation.ReflTransGen E i w → Relation.TransGen E i j := by
    intro w hlast hpath
    exact .tail' hpath (hE (w, j) (mem_touch.2 ⟨⟨rfl, hne w (ha.writer w hlast).1⟩, Or.inl hlast⟩))
  obtain ⟨⟨hti, -⟩, hwi | hwj⟩ := hc
  · obtain ⟨w, hlast, hpath⟩ := ha.written i hi hwi
    exact hwriter w hlast hpath
  · rcases ha.touched i hi hti with hreader | ⟨w, hlast, hpath⟩
    · exact .single (hE (i, j) (mem_touch.2 ⟨⟨rfl, hne i hi⟩, Or.inr ⟨hw.2 hwj, hreader⟩⟩))
    · exact hwriter w hlast hpath

/-- the account is kept: a writer takes the place of all that was remembered, a reader is remembered as well -/
theorem touch (ha : Accounts passes key E walked h) (hj : j ∉ walked) (ht : TouchesAt passes key j)
    (hw : writes = true ↔ WritesAt passes key j) (hE : ∀ e ∈ (h.touch j writes).1, E e.1 e.2) :
    Accounts passes key E (walked ++ [j]) (h.touch j writes).2 := by
  cases writes with
  | true =>
    have hwj := hw.1 rfl
    have hpath : ∀ i ∈ walked ++ [j], TouchesAt passes key i → Relation.ReflTransGen E i j := by
      intro i hi hti
      rcases List.mem_append.1 hi with hi | hi
      · exact (ha.transGen hj hw hE hi ⟨⟨hti, ht⟩, Or.inr hwj⟩).to_reflTransGen
      · rw [List.mem_singleton.1 hi]
    refine ⟨fun w hlast => ?_, fun r hr => (List.not_mem_nil hr).elim, fun i hi hwi => ⟨j, rfl, hpath i hi hwi.touches⟩,
      fun i hi hti => Or.inr ⟨j, rfl, hpath i hi hti⟩⟩
    obtain rfl := Option.some.inj hlast
    exact ⟨List.mem_append_right _ (List.mem_singleton_self _), hwj⟩
  | false =>
    have hno : ¬ WritesAt passes key j := fun hwj => Bool.false_ne_true (hw.2 hwj)
    refine ⟨fun w hlast => ⟨List.mem_append_left _ (ha.writer w hlast).1, (ha.writer w hlast).2⟩, fun r hr => ?_,
      fun i hi hwi => ?_, fun i hi hti => ?_⟩
    · rcases List.mem_append.1 hr with hr | hr
      · exact ⟨List.mem_append_left _ (ha.reader r hr).1, (ha.reader r hr).2⟩
      · rw [List.mem_singleton.1 hr]
        exact ⟨List.mem_append_right _ (List.mem_singleton_self j), ht⟩
    · rcases List.mem_append.1 hi with hi | hi
      · exact ha.written i hi hwi
      · exact absurd (List.mem_singleton.1 hi ▸ hwi) hno
    · rcases List.mem_append.1 hi with hi | hi
      · exact (ha.touched i hi hti).imp_left fun hr => List.mem_append_left _ hr
      · exact Or.inl (List.mem_append_right _ hi)

end Accounts

end Hazard

/-! ## The edges of one resource -/

section Resource

variable {E : Nat → Nat → Prop} {walked rest : List Nat} {h : Hazard}

/-- the passes that are walked come before the next one -/
theorem lt_of_pairwise_append {a : Nat} (hn : (walked ++ a :: rest).Pairwise (· < ·)) : ∀ m ∈ walked, m < a :=
  fun m hm => (List.pairwise_append.1 hn).2.2 m hm a List.mem_cons_self

/-- **Edges are between conflicting passes,** from the earlier to the later one. -/
theorem conflict_of_mem_resourceEdges (ha : h.Accounts passes key E walked) (hn : (walked ++ rest).Pairwise (· < ·))
    (hE : ∀ e ∈ resourceEdges passes key h rest, E e.1 e.2) {e : Edge} (he : e ∈ resourceEdges passes key h rest) :
    e.1 < e.2 ∧ (e.1 ∈ walked ++ rest ∧ e.2 ∈ rest) ∧ ConflictThrough passes key e.1 e.2 := by
  induction rest generalizing walked h with
  | nil => cases he
  | cons j rest ih =>
    have hn' : (walked ++ [j] ++ rest).Pairwise (· < ·) := by rwa [List.append_assoc]
    have hlt := lt_of_pairwise_append hn
    have hj : j ∉ walked := fun hm => lt_irrefl j (hlt j hm)
    have hlater : (e.1 < e.2 ∧ (e.1 ∈ walked ++ [j] ++ rest ∧ e.2 ∈ rest) ∧ ConflictThrough passes key e.1 e.2) →
        e.1 < e.2 ∧ (e.1 ∈ walked ++ j :: rest ∧ e.2 ∈ j :: rest) ∧ ConflictThrough passes key e.1 e.2 := by
      rintro ⟨h1, ⟨h2, h3⟩, h4⟩
      rw [List.append_assoc] at h2
      exact ⟨h1, ⟨h2, List.mem_cons_of_mem j h3⟩, h4⟩
    rcases resourceEdges_cons passes key h j rest with ⟨hno, hs⟩ | ⟨ht, writes, hw, hs⟩
    · rw [hs] at he hE
      exact hlater (ih (ha.skip hno) hn' hE he)
    · rw [hs] at he hE
      have hfirst : ∀ e ∈ (h.touch j writes).1, E e.1 e.2 := fun e hm => hE e (List.mem_append_left _ hm)
      rcases List.mem_append.1 he with he | he
      · obtain ⟨⟨hto, -⟩, hfrom⟩ := Hazard.mem_touch.1 he
        rw [hto]
        have hwalked : e.1 ∈ walked ∧ ConflictThrough passes key e.1 j := by
          rcases hfrom with hlast | ⟨hwrites, hreader⟩
          · obtain ⟨hm, hwe⟩ := ha.writer _ hlast
            exact ⟨hm, ⟨hwe.touches, ht⟩, Or.inl hwe⟩
          · obtain ⟨hm, hte⟩ := ha.reader _ hreader
            exact ⟨hm, ⟨hte, ht⟩, Or.inr (hw.1 hwrites)⟩
        exact ⟨hlt _ hwalked.1, ⟨List.mem_append_left _ hwalked.1, List.mem_cons_self⟩, hwalked.2⟩
      · exact hlater (ih (ha.touch hj ht hw hfirst) hn' (fun e hm => hE e (List.mem_append_right _ hm)) he)

/-- **Conflicting passes are ordered,** by an edge or by a path. -/
theorem transGen_of_conflict (ha : h.Accounts passes key E walked) (hn : (walked ++ rest).Pairwise (· < ·))
    (hE : ∀ e ∈ resourceEdges passes key h rest, E e.1 e.2) (hi : i ∈ walked ++ rest) (hj : j ∈ rest) (hij : i < j)
    (hc : ConflictThrough passes key i j) : Relation.TransGen E i j := by
  induction rest generalizing walked h with
  | nil => cases hj
  | cons m rest ih =>
    have hn' : (walked ++ [m] ++ rest).Pairwise (· < ·) := by rwa [List.append_assoc]
    have hi' : i ∈ walked ++ [m] ++ rest := by rwa [List.append_assoc]
    have hm : m ∉ walked := fun hm => lt_irrefl m (lt_of_pairwise_append hn m hm)
    rcases resourceEdges_cons passes key h m rest with ⟨hno, hs⟩ | ⟨ht, writes, hw, hs⟩
    · rw [hs] at hE
      rcases List.mem_cons.1 hj with rfl | hj
      · exact absurd hc.1.2 hno
      · exact ih (ha.skip hno) hn' hE hi' hj
    · rw [hs] at hE
      have hfirst : ∀ e ∈ (h.touch m writes).1, E e.1 e.2 := fun e he => hE e (List.mem_append_left _ he)
      rcases List.mem_cons.1 hj with rfl | hj
      · -- a pass below the one walked now has been walked before it
        have hwalked : i ∈ walked := by
          rcases List.mem_append.1 hi with hi | hi
          · exact hi
          · rcases List.mem_cons.1 hi with rfl | hi
            · exact absurd hij (lt_irrefl i)
            · exact absurd hij ((List.pairwise_cons.1 (List.pairwise_append.1 hn).2.1).1 i hi).not_gt
        exact ha.transGen hm hw hfirst hwalked hc
      · exact ih (ha.touch hm ht hw hfirst) hn' (fun e he => hE e (List.mem_append_right _ he)) hi' hj

end Resource

/-! ## The edges of all resources -/

theorem mem_touchedKeys {needed : List Nat} (hi : i ∈ needed) (ht : TouchesAt passes key i) :
    key ∈ touchedKeys passes needed := by
  obtain ⟨p, hp, hkey⟩ := ht
  refine List.mem_eraseDups.2 (List.mem_flatMap.2 ⟨p, List.mem_filterMap.2 ⟨i, hi, hp⟩, List.mem_append.2 hkey.symm⟩)

theorem mem_dependencyEdges {needed : List Nat} {e : Edge} :
    e ∈ dependencyEdges passes needed ↔ ∃ key ∈ touchedKeys passes needed, e ∈ resourceEdges passes key {} needed :=
  mem_ascending.trans List.mem_flatMap

/-- every edge goes from an earlier to a later needed pass that it conflicts with -/
theorem conflict_of_mem_dependencyEdges {needed : List Nat} (hn : needed.Pairwise (· < ·)) {e : Edge}
    (he : e ∈ dependencyEdges passes needed) : e.1 < e.2 ∧ (e.1 ∈ needed ∧ e.2 ∈ needed) ∧ ConflictAt passes e.1 e.2 := by
  obtain ⟨key, -, he⟩ := mem_dependencyEdges.1 he
  obtain ⟨hlt, hmem, hc⟩ :=
    conflict_of_mem_resourceEdges (E := fun _ _ => True) .start (by rwa [List.nil_append]) (fun _ _ => trivial) he
  exact ⟨hlt, hmem, key, hc⟩

/-- **The edges order exactly the passes that conflict.** Each of them goes from an earlier to a later pass it conflicts
with, a later pass is reached from every earlier one it conflicts with, and they are listed in ascending order, each once. -/
theorem dependencyEdges_exact (passes : List Pass) {needed : List Nat} (hn : needed.Pairwise (· < ·)) :
    let edges := dependencyEdges passes needed
    (∀ e ∈ edges, e.1 < e.2 ∧ (e.1 ∈ needed ∧ e.2 ∈ needed) ∧ ConflictAt passes e.1 e.2) ∧
      (∀ i ∈ needed, ∀ j ∈ needed, i < j → ConflictAt passes i j → Relation.TransGen (fun i j => (i, j) ∈ edges) i j) ∧
      edges.Pairwise fun e f => e.1 < f.1 ∨ e.1 = f.1 ∧ e.2 < f.2 := by
  intro edges
  refine ⟨fun e he => conflict_of_mem_dependencyEdges hn he, fun i hi j hj hij ⟨key, hc⟩ => ?_, ?_⟩
  · have hmem : ∀ e ∈ resourceEdges passes key {} needed, (e.1, e.2) ∈ edges := fun e he =>
      mem_dependencyEdges.2 ⟨key, mem_touchedKeys hi hc.1.1, he⟩
    exact transGen_of_conflict .start (by rwa [List.nil_append]) hmem hi hj hij hc
  · have hkey : Function.Injective fun e : Edge => [e.1, e.2] := by
      rintro ⟨i, j⟩ ⟨m, n⟩ e
      simpa using e
    refine (pairwise_ascending hkey _).imp fun {e f} hlt => ?_
    simpa [List.cons_lt_cons_iff] using hlt

/-- four passes on one resource: the first is ordered before the last through the one that reads and writes -/
theorem dependencyEdges_exact_chain :
    let pass := fun access : Access => Pass.withSets
      { name := "pass", kind := .compute, usages := [.ofHandle ⟨.buffer, ⟨0, none⟩⟩ .common access],
        callback := fun _ => [] }
    let passes := [pass .write, pass .read, pass .readWrite, pass .write]
    let needed := [0, 1, 2, 3]
    let edges := dependencyEdges passes needed
    edges = [(0, 1), (0, 2), (1, 2), (2, 3)] ∧ needed.Pairwise (· < ·) ∧
      (∀ e ∈ edges, e.1 < e.2 ∧ (e.1 ∈ needed ∧ e.2 ∈ needed) ∧ ConflictAt passes e.1 e.2) ∧
      (∀ i ∈ needed, ∀ j ∈ needed, i < j → ConflictAt passes i j → Relation.TransGen (fun i j => (i, j) ∈ edges) i j) ∧
      edges.Pairwise fun e f => e.1 < f.1 ∨ e.1 = f.1 ∧ e.2 < f.2 := by
  intro pass passes needed edges
  have hn : needed.Pairwise (· < ·) := by decide
  exact ⟨by decide +kernel, hn, dependencyEdges_exact passes hn⟩

end FrameGraph
