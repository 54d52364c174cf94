/-
Merging barriers neither loses, repeats nor widens what they move.

- `Coalesced`: parts joined into fewer ones. Each address is in as many of the joined parts as of the given ones, and each
  given part is within a joined one.
- `coalesce_coalesced`: joining parts that fit never faults, and the result is such a list.
- `Merged`: barriers that move, counted address by address and with their states, what other barriers move.
- `Moves.merge`: merging the barriers of an exact difference never faults, and the result is one again. In a group with
  a whole-resource barrier the others would cover addresses twice, so there are none and leaving them out loses nothing.
- `Granted.mergeAll`, `Granted.mergeAll_ok`: the same for the barriers of all passes. If they can be counted, nothing
  faults, and each of them is either left or counted as merged away.
- `mergeAll_from`: whatever the barriers are, each one left is a given one with another part.
-/
import FrameGraph.Proofs.Sorting
import FrameGraph.Proofs.Synthesis
import FrameGraph.Plan.Compile
import Mathlib.Data.List.SplitBy

namespace FrameGraph

open ResourceKind

variable {k : ResourceKind}

/-! ## Joining two parts -/

variable {β : Type} {b : k.Bounds} {meets : k.Part → k.Part → Bool} {grow : k.Part → k.Part → Except Fault k.Part}

/-- parts that meet can be joined, and what they are joined to has the addresses of both, none of them twice -/
def Joins (b : k.Bounds) (meets : k.Part → k.Part → Bool) (grow : k.Part → k.Part → Except Fault k.Part) : Prop :=
  ∀ p q, k.Inside b p → k.Inside b q → meets p q = true →
    ∃ c, grow p q = .ok c ∧ k.Inside b c ∧ ∀ i, (k.holds b c i).toNat = (k.holds b p i).toNat + (k.holds b q i).toNat

/-- two truth values that exclude each other, counted -/
theorem toNat_eq_add {x y z : Bool} (h : x = true ↔ y = true ∨ z = true) (hyz : ¬ (y = true ∧ z = true)) :
    x.toNat = y.toNat + z.toNat := by
  revert h hyz
  cases x <;> cases y <;> cases z <;> decide

theorem joins_mips {e : Extent} (he : texture.Measured e) :
    @Joins texture e Subresources.meetsMips Subresources.growMips := by
  intro p q hp hq h
  obtain ⟨⟨h1, h2⟩, h3, h4⟩ := hp
  obtain ⟨⟨g1, g2⟩, g3, g4⟩ := hq
  obtain ⟨⟨-, hm⟩, -, -⟩ := he
  simp only [Subresources.meetsMips, Bool.and_eq_true, beq_iff_eq] at h
  obtain ⟨⟨e1, e2⟩, e3⟩ := h
  rw [Subresources.mipEnd, saturatingAdd_eq (h2.trans hm)] at e3
  refine ⟨{ p with mipCount := p.mipCount + q.mipCount }, ?_, ?_, fun i => toNat_eq_add ?_ ?_⟩
  · rw [Subresources.growMips, checkedAdd_eq_ok (by omega)]
    rfl
  · simp only [Inside]
    omega
  · rw [holds_texture, holds_texture, holds_texture]
    simp only
    omega
  · rw [holds_texture, holds_texture]
    omega

theorem joins_layers {e : Extent} (he : texture.Measured e) :
    @Joins texture e Subresources.meetsLayers Subresources.growLayers := by
  intro p q hp hq h
  obtain ⟨⟨h1, h2⟩, h3, h4⟩ := hp
  obtain ⟨⟨g1, g2⟩, g3, g4⟩ := hq
  obtain ⟨-, -, hl⟩ := he
  simp only [Subresources.meetsLayers, Bool.and_eq_true, beq_iff_eq] at h
  obtain ⟨⟨e1, e2⟩, e3⟩ := h
  rw [Subresources.layerEnd, saturatingAdd_eq (h4.trans hl)] at e3
  refine ⟨{ p with layerCount := p.layerCount + q.layerCount }, ?_, ?_, fun i => toNat_eq_add ?_ ?_⟩
  · rw [Subresources.growLayers, checkedAdd_eq_ok (by omega)]
    rfl
  · simp only [Inside]
    omega
  · rw [holds_texture, holds_texture, holds_texture]
    simp only
    omega
  · rw [holds_texture, holds_texture]
    omega

theorem joins_bytes {n : Nat} (hn : buffer.Measured n) : @Joins buffer n ByteSpan.meets ByteSpan.grow := by
  intro p q hp hq h
  obtain ⟨h1, h2⟩ := hp
  obtain ⟨g1, g2⟩ := hq
  have hn : n ≤ maxWord64 := hn
  simp only [ByteSpan.meets, beq_iff_eq] at h
  rw [ByteSpan.stop, saturatingAdd_eq (h2.trans hn)] at h
  refine ⟨{ p with size := p.size + q.size }, ?_, ?_, fun i => toNat_eq_add ?_ ?_⟩
  · rw [ByteSpan.grow, checkedAdd_eq_ok (by omega)]
    rfl
  · simp only [Inside]
    omega
  · rw [holds_buffer, holds_buffer, holds_buffer]
    simp only
    omega
  · rw [holds_buffer, holds_buffer]
    omega

/-! ## Joining many parts -/

/-- parts joined into no more than there were: they fit, each address is in as many of them, each comes from a given one,
and each given one is within one of them -/
structure Coalesced (b : k.Bounds) (parts runs : List (β × k.Part)) : Prop where
  fewer : runs.length ≤ parts.length
  inside : ∀ x ∈ runs, k.Inside b x.2
  count : ∀ i, runs.countP (fun x => k.holds b x.2 i) = parts.countP fun x => k.holds b x.2 i
  origin : ∀ x ∈ runs, ∃ y ∈ parts, y.1 = x.1
  within : ∀ x ∈ parts, ∃ y ∈ runs, ∀ i, k.holds b x.2 i = true → k.holds b y.2 i = true

namespace Coalesced

variable {parts runs others : List (β × k.Part)} {x : β × k.Part}

theorem refl (h : ∀ x ∈ parts, k.Inside b x.2) : Coalesced b parts parts :=
  ⟨le_rfl, h, fun _ => rfl, fun x hx => ⟨x, hx, rfl⟩, fun x hx => ⟨x, hx, fun _ hi => hi⟩⟩

theorem trans (h : Coalesced b parts runs) (h' : Coalesced b runs others) : Coalesced b parts others where
  fewer := h'.fewer.trans h.fewer
  inside := h'.inside
  count := fun i => (h'.count i).trans (h.count i)
  origin := fun x hx => by
    obtain ⟨y, hy, e⟩ := h'.origin x hx
    obtain ⟨z, hz, e'⟩ := h.origin y hy
    exact ⟨z, hz, e'.trans e⟩
  within := fun x hx => by
    obtain ⟨y, hy, hxy⟩ := h.within x hx
    obtain ⟨z, hz, hyz⟩ := h'.within y hy
    exact ⟨z, hz, fun i hi => hyz i (hxy i hi)⟩

theorem perm (h : Coalesced b parts runs) (hp : parts.Perm others) : Coalesced b others runs where
  fewer := h.fewer.trans hp.length_eq.le
  inside := h.inside
  count := fun i => (h.count i).trans (hp.countP_eq _)
  origin := fun x hx => by
    obtain ⟨y, hy, e⟩ := h.origin x hx
    exact ⟨y, hp.mem_iff.1 hy, e⟩
  within := fun x hx => h.within x (hp.mem_iff.2 hx)

theorem cons (h : Coalesced b parts runs) (hx : k.Inside b x.2) : Coalesced b (x :: parts) (x :: runs) where
  fewer := Nat.succ_le_succ h.fewer
  inside := List.forall_mem_cons.2 ⟨hx, h.inside⟩
  count := fun i => by rw [List.countP_cons, List.countP_cons, h.count]
  origin := fun y hy => by
    rcases List.mem_cons.1 hy with rfl | hy
    · exact ⟨y, List.mem_cons_self, rfl⟩
    · obtain ⟨z, hz, e⟩ := h.origin y hy
      exact ⟨z, List.mem_cons_of_mem x hz, e⟩
  within := fun y hy => by
    rcases List.mem_cons.1 hy with rfl | hy
    · exact ⟨y, List.mem_cons_self, fun _ hi => hi⟩
    · obtain ⟨z, hz, hyz⟩ := h.within y hy
      exact ⟨z, List.mem_cons_of_mem x hz, hyz⟩

/-- two parts joined into one -/
theorem join {y : β × k.Part} {c : k.Part} (hc : k.Inside b c) (hp : ∀ z ∈ parts, k.Inside b z.2)
    (h : ∀ i, (k.holds b c i).toNat = (k.holds b x.2 i).toNat + (k.holds b y.2 i).toNat) :
    Coalesced b (x :: y :: parts) ((x.1, c) :: parts) where
  fewer := Nat.le_succ _
  inside := List.forall_mem_cons.2 ⟨hc, hp⟩
  count := fun i => by
    have hi := h i
    simp only [List.countP_cons]
    rcases Bool.eq_false_or_eq_true (k.holds b c i) with h1 | h1 <;>
      rcases Bool.eq_false_or_eq_true (k.holds b x.2 i) with h2 | h2 <;>
        rcases Bool.eq_false_or_eq_true (k.holds b y.2 i) with h3 | h3 <;>
          simp [h1, h2, h3] at hi ⊢
  origin := fun z hz => by
    rcases List.mem_cons.1 hz with rfl | hz
    · exact ⟨x, List.mem_cons_self, rfl⟩
    · exact ⟨z, List.mem_cons_of_mem _ (List.mem_cons_of_mem _ hz), rfl⟩
  within := fun z hz => by
    have hboth : ∀ i, (k.holds b x.2 i = true → k.holds b c i = true) ∧ (k.holds b y.2 i = true → k.holds b c i = true) := by
      intro i
      have hi := h i
      revert hi
      cases k.holds b c i <;> cases k.holds b x.2 i <;> cases k.holds b y.2 i <;> decide
    rcases List.mem_cons.1 hz with rfl | hz
    · exact ⟨(z.1, c), List.mem_cons_self, fun i => (hboth i).1⟩
    · rcases List.mem_cons.1 hz with rfl | hz
      · exact ⟨(x.1, c), List.mem_cons_self, fun i => (hboth i).2⟩
      · exact ⟨z, List.mem_cons_of_mem _ hz, fun _ hi => hi⟩

end Coalesced

theorem joinNeighbours_coalesced (hj : Joins b meets grow) {run : β × k.Part} {parts : List (β × k.Part)}
    (hr : k.Inside b run.2) (hp : ∀ x ∈ parts, k.Inside b x.2) :
    ∃ runs, joinNeighbours meets grow run parts = .ok runs ∧ Coalesced b (run :: parts) runs := by
  induction parts generalizing run with
  | nil => exact ⟨[run], rfl, Coalesced.refl (by simpa using hr)⟩
  | cons next rest ih =>
    obtain ⟨hn, hrest⟩ := List.forall_mem_cons.1 hp
    unfold joinNeighbours
    by_cases hm : meets run.2 next.2 = true
    · obtain ⟨c, hg, hc, hholds⟩ := hj _ _ hr hn hm
      obtain ⟨runs, e, h⟩ := @ih (run.1, c) hc hrest
      refine ⟨runs, ?_, (Coalesced.join hc hrest hholds).trans h⟩
      rw [if_pos hm, hg]
      exact e
    · obtain ⟨runs, e, h⟩ := ih hn hrest
      refine ⟨run :: runs, ?_, h.cons hr⟩
      rw [if_neg hm, e]
      rfl

theorem neighbourRuns_coalesced (hj : Joins b meets grow) {parts : List (β × k.Part)}
    (hp : ∀ x ∈ parts, k.Inside b x.2) :
    ∃ runs, neighbourRuns meets grow parts = .ok runs ∧ Coalesced b parts runs := by
  cases parts with
  | nil => exact ⟨[], rfl, Coalesced.refl hp⟩
  | cons first rest =>
    obtain ⟨h1, h2⟩ := List.forall_mem_cons.1 hp
    exact joinNeighbours_coalesced hj h1 h2

theorem joinFirst_coalesced (hj : Joins b meets grow) {next : β × k.Part} {runs : List (β × k.Part)}
    (hn : k.Inside b next.2) (hr : ∀ x ∈ runs, k.Inside b x.2) :
    ∃ out, joinFirst meets grow next runs = .ok out ∧ Coalesced b (next :: runs) out := by
  induction runs with
  | nil => exact ⟨[next], rfl, Coalesced.refl (by simpa using hn)⟩
  | cons run runs ih =>
    obtain ⟨h1, h2⟩ := List.forall_mem_cons.1 hr
    unfold joinFirst
    by_cases hm : meets run.2 next.2 = true
    · obtain ⟨c, hg, hc, hholds⟩ := hj _ _ h1 hn hm
      refine ⟨(run.1, c) :: runs, ?_, (Coalesced.join hc h2 hholds).perm (List.Perm.swap _ _ _)⟩
      rw [if_pos hm, hg]
      rfl
    · obtain ⟨out, e, h⟩ := ih h2
      refine ⟨run :: out, ?_, (h.cons h1).perm (List.Perm.swap _ _ _)⟩
      rw [if_neg hm, e]
      rfl

theorem foldlM_joinFirst_coalesced (hj : Joins b meets grow) {runs parts : List (β × k.Part)}
    (hr : ∀ x ∈ runs, k.Inside b x.2) (hp : ∀ x ∈ parts, k.Inside b x.2) :
    ∃ out, parts.foldlM (fun runs next => joinFirst meets grow next runs) runs = .ok out ∧
      Coalesced b (parts ++ runs) out := by
  induction parts generalizing runs with
  | nil => exact ⟨runs, rfl, Coalesced.refl hr⟩
  | cons next rest ih =>
    obtain ⟨h1, h2⟩ := List.forall_mem_cons.1 hp
    obtain ⟨mid, e, h⟩ := joinFirst_coalesced hj h1 hr
    obtain ⟨out, e', h'⟩ := ih h.inside h2
    refine ⟨out, ?_, ?_⟩
    · rw [List.foldlM_cons, e]
      exact e'
    · -- the first part has gone into the runs before the rest is joined to them
      have hmid : ∀ {l : List (β × k.Part)}, (∀ x ∈ l, k.Inside b x.2) →
          Coalesced b (l ++ next :: runs) (l ++ mid) := by
        intro l hl
        induction l with
        | nil => exact h
        | cons x l ihl =>
          obtain ⟨hx, hl⟩ := List.forall_mem_cons.1 hl
          exact (ihl hl).cons hx
      exact ((hmid h2).perm List.perm_middle).trans h'

/-- **Joining parts that fit never faults and keeps each address as often as it was.** -/
theorem coalesce_coalesced (hb : k.Measured b) {parts : List (β × k.Part)} (hp : ∀ x ∈ parts, k.Inside b x.2) :
    ∃ runs, k.coalesce parts = .ok runs ∧ Coalesced b parts runs := by
  cases k with
  | texture =>
    obtain ⟨mid, e, h⟩ := neighbourRuns_coalesced (joins_mips hb) hp
    have hnil : ∀ x ∈ ([] : List (β × Subresources)), texture.Inside b x.2 := fun _ hx => absurd hx List.not_mem_nil
    obtain ⟨out, e', h'⟩ := foldlM_joinFirst_coalesced (joins_layers hb) hnil h.inside
    rw [List.append_nil] at h'
    refine ⟨out, ?_, h.trans h'⟩
    rw [coalesce, e]
    exact e'
  | buffer => exact neighbourRuns_coalesced (joins_bytes hb) hp

/-! ## Groups -/

/-- barriers of one group differ in their parts only, as far as states are concerned -/
theorem eq_of_groupKey_eq {a c : Barrier k} (h : a.groupKey = c.groupKey) :
    a.resource = c.resource ∧ a.before = c.before ∧ a.after = c.after := by
  simp only [Barrier.groupKey, List.cons.injEq] at h
  exact ⟨h.1, ResourceState.rank_injective h.2.1, ResourceState.rank_injective h.2.2.1⟩

theorem groupKey_eq_of_mem {bs group : List (Barrier k)} (hg : group ∈ barrierGroups bs) {a c : Barrier k}
    (ha : a ∈ group) (hc : c ∈ group) : a.groupKey = c.groupKey := by
  let R : Barrier k → Barrier k → Prop := fun a c => a.groupKey = c.groupKey
  have hchain : group.IsChain R := (List.isChain_of_mem_splitBy hg).imp fun a c h => by simpa using h
  have : Trans R R R := ⟨Eq.trans⟩
  have : Std.Symm R := ⟨fun _ _ => Eq.symm⟩
  exact List.Pairwise.forall_of_forall (R := R) (fun _ _ => rfl) (List.isChain_iff_pairwise.1 hchain) ha hc

theorem flatten_barrierGroups (bs : List (Barrier k)) : (barrierGroups bs).flatten.Perm bs := by
  rw [barrierGroups, List.flatten_splitBy]
  exact sortOn_perm _ _

/-! ## Merging one group -/

/-- each address the first barrier moves, the second one moves in the same way -/
def Barrier.Within (L : Layout) (c m : Barrier k) : Prop :=
  m.groupKey = c.groupKey ∧ ∀ i, c.covers L i = true → m.covers L i = true

/-- barriers that move what other barriers move, and are no more than those; each of those is within one of them -/
structure Merged (L : Layout) (bs ms : List (Barrier k)) : Prop where
  fewer : ms.length ≤ bs.length
  placed : ∀ b ∈ ms, b.Placed L
  count : ∀ n i s s', ms.countP (Barrier.takes L n i s s') = bs.countP (Barrier.takes L n i s s')
  origin : ∀ b ∈ ms, ∃ c ∈ bs, ∃ p, b = { c with part := p }
  within : ∀ c ∈ bs, ∃ m ∈ ms, c.Within L m

theorem takes_eq {L : Layout} {c : Barrier k} {size : k.Bounds} (h : L k c.resource = some size) (n i : Nat)
    (s s' : ResourceState) :
    c.takes L n i s s' = (decide (c.resource = n ∧ c.before = s ∧ c.after = s') && k.reaches size c.part i) := by
  rw [Bool.eq_iff_iff, Moves.takes_iff, Barrier.covers, h]
  simp only [Option.any_some, Bool.and_eq_true, decide_eq_true_eq]
  tauto

variable {L : Layout} {bounds : Nat → Except Fault k.Bounds} {group : List (Barrier k)}

theorem merged_nil : Merged L ([] : List (Barrier k)) [] :=
  ⟨le_rfl, fun _ h => absurd h List.not_mem_nil, fun _ _ _ _ => rfl, fun _ h => absurd h List.not_mem_nil,
    fun _ h => absurd h List.not_mem_nil⟩

/-- a whole-resource barrier leaves nothing for the others of its group -/
theorem merged_whole {whole : Barrier k} (hw : whole ∈ group) (hpart : whole.part = none)
    (hp : ∀ c ∈ group, c.Placed L) (hkey : ∀ a ∈ group, ∀ c ∈ group, a.groupKey = c.groupKey)
    (honce : ∀ n i s s', group.countP (Barrier.takes L n i s s') ≤ 1) : Merged L group [whole] where
  fewer := List.length_pos_of_mem hw
  placed := fun c hc => by
    rw [List.mem_singleton.1 hc]
    exact hp whole hw
  count := fun n i s s' => by
    rw [List.countP_singleton]
    by_cases ht : whole.takes L n i s s' = true
    · rw [if_pos ht]
      exact le_antisymm (List.countP_pos_iff.2 ⟨whole, hw, ht⟩) (honce n i s s')
    · rw [if_neg ht, eq_comm, List.countP_eq_zero]
      intro c hc hct
      obtain ⟨size, hsize, -⟩ := hp whole hw
      obtain ⟨e1, e2, e3⟩ := eq_of_groupKey_eq (hkey c hc whole hw)
      rw [takes_eq (e1 ▸ hsize), e1, e2, e3, Bool.and_eq_true] at hct
      refine ht ?_
      rw [takes_eq hsize, hpart, hct.1, reaches_none, Bool.true_and, decide_eq_true_eq]
      exact lt_size_of_reaches hct.2
  origin := fun c hc => ⟨c, by rwa [List.mem_singleton.1 hc], c.part, rfl⟩
  within := fun c hc => by
    obtain ⟨size, hsize, -⟩ := hp whole hw
    have hkc := hkey c hc whole hw
    refine ⟨whole, List.mem_singleton_self whole, hkc.symm, fun i hi => ?_⟩
    rw [Barrier.covers, (eq_of_groupKey_eq hkc).1, hsize] at hi
    rw [Barrier.covers, hsize, hpart, Option.any_some, reaches_none, decide_eq_true_eq]
    exact lt_size_of_reaches hi

/-- a part that covers the resource may be left out: the same addresses are reached -/
theorem reaches_unless_covers (size : k.Bounds) (p : k.Part) (i : Nat) :
    k.reaches size (if k.covers size p then none else some p) i = k.reaches size (some p) i := by
  split
  · rename_i hc
    exact (reaches_of_covers hc i).symm
  · rfl

/-- each run begins with a barrier of the group -/
theorem mem_of_runs {size : k.Bounds} {runs : List (Barrier k × k.Part)}
    (h : Coalesced size (group.filterMap fun c => c.part.map (c, ·)) runs) : ∀ x ∈ runs, x.1 ∈ group := by
  intro x hx
  obtain ⟨y, hy, e⟩ := h.origin x hx
  obtain ⟨c, hc, hcy⟩ := List.mem_filterMap.1 hy
  obtain ⟨p, -, rfl⟩ := Option.map_eq_some_iff.1 hcy
  rwa [← e]

/-- parts joined to runs move each address as often as the parts did -/
theorem countP_takes_runs {first : Barrier k} {size : k.Bounds} {runs : List (Barrier k × k.Part)}
    (hsize : L k first.resource = some size) (hkey : ∀ c ∈ group, c.groupKey = first.groupKey)
    (hparts : ∀ c ∈ group, ∃ p, c.part = some p)
    (h : Coalesced size (group.filterMap fun c => c.part.map (c, ·)) runs) (n i : Nat) (s s' : ResourceState) :
    (runs.map fun (c, p) => ({ c with part := if k.covers size p then none else some p } : Barrier k)).countP
        (Barrier.takes L n i s s') = group.countP (Barrier.takes L n i s s') := by
  let key : Bool := decide (first.resource = n ∧ first.before = s ∧ first.after = s')
  have hkeyed : ∀ c ∈ group, ∀ p, ({ c with part := p } : Barrier k).takes L n i s s' = (key && k.reaches size p i) := by
    intro c hc p
    obtain ⟨e1, e2, e3⟩ := eq_of_groupKey_eq (hkey c hc)
    rw [takes_eq (c := { c with part := p }) (e1 ▸ hsize)]
    simp only [e1, e2, e3]
    rfl
  calc (runs.map fun (c, p) => ({ c with part := if k.covers size p then none else some p } : Barrier k)).countP
        (Barrier.takes L n i s s')
      = runs.countP fun x => key && decide (i < k.size size) && k.holds size x.2 i := by
        rw [List.countP_map]
        refine List.countP_congr fun x hx => ?_
        rw [Function.comp, hkeyed _ (mem_of_runs h x hx), reaches_unless_covers, reaches_some, Bool.and_assoc]
    _ = (group.filterMap fun c => c.part.map (c, ·)).countP
          fun x => key && decide (i < k.size size) && k.holds size x.2 i := by
        cases key && decide (i < k.size size) with
        | true => simpa only [Bool.true_and] using h.count i
        | false => simp only [Bool.false_and, List.countP_false, Function.const_apply]
    _ = group.countP (Barrier.takes L n i s s') := by
        rw [List.countP_filterMap]
        refine List.countP_congr fun c hc => ?_
        obtain ⟨p, hp⟩ := hparts c hc
        have ht := hkeyed c hc c.part
        rw [hp, reaches_some, ← Bool.and_assoc, ← hp] at ht
        rw [ht, hp]
        rfl

/-- parts joined to runs move what the parts moved -/
theorem merged_runs {first : Barrier k} {size : k.Bounds} {runs : List (Barrier k × k.Part)}
    (hsize : L k first.resource = some size) (hkey : ∀ c ∈ group, c.groupKey = first.groupKey)
    (hparts : ∀ c ∈ group, ∃ p, c.part = some p)
    (h : Coalesced size (group.filterMap fun c => c.part.map (c, ·)) runs) :
    Merged L group (runs.map fun (c, p) => { c with part := if k.covers size p then none else some p }) where
  fewer := by
    rw [List.length_map]
    exact h.fewer.trans (List.length_filterMap_le _ _)
  placed := fun m hm => by
    obtain ⟨x, hx, rfl⟩ := List.mem_map.1 hm
    refine ⟨size, by rw [← hsize, ← (eq_of_groupKey_eq (hkey _ (mem_of_runs h x hx))).1], fun p hp => ?_⟩
    simp only at hp
    split at hp
    · cases hp
    · cases hp
      exact h.inside x hx
  count := countP_takes_runs hsize hkey hparts h
  origin := fun m hm => by
    obtain ⟨x, hx, rfl⟩ := List.mem_map.1 hm
    exact ⟨x.1, mem_of_runs h x hx, _, rfl⟩
  within := fun c hc => by
    obtain ⟨p, hp⟩ := hparts c hc
    obtain ⟨x, hx, hwithin⟩ := h.within (c, p) (List.mem_filterMap.2 ⟨c, hc, by rw [hp]; rfl⟩)
    have hkx := hkey _ (mem_of_runs h x hx)
    refine ⟨_, List.mem_map_of_mem hx, hkx.trans (hkey c hc).symm, fun i hi => ?_⟩
    rw [Barrier.covers, (eq_of_groupKey_eq (hkey c hc)).1, hsize, hp, Option.any_some, reaches_some,
      Bool.and_eq_true] at hi
    rw [Barrier.covers, (eq_of_groupKey_eq hkx).1, hsize, Option.any_some, reaches_unless_covers, reaches_some, hi.1,
      Bool.true_and]
    exact hwithin i hi.2

theorem mergeGroup_merged (hL : ∀ n size, L k n = some size → k.Measured size ∧ bounds n = .ok size)
    (hp : ∀ c ∈ group, c.Placed L) (hkey : ∀ a ∈ group, ∀ c ∈ group, a.groupKey = c.groupKey)
    (honce : ∀ n i s s', group.countP (Barrier.takes L n i s s') ≤ 1) :
    ∃ ms, mergeGroup bounds group = .ok ms ∧ Merged L group ms := by
  cases hf : group.find? (·.part.isNone) with
  | some whole =>
    refine ⟨[whole], by simp only [mergeGroup, hf], merged_whole (List.mem_of_find?_eq_some hf) ?_ hp hkey honce⟩
    simpa using List.find?_some hf
  | none =>
    have hparts : ∀ c ∈ group, ∃ p, c.part = some p := by
      intro c hc
      have := List.find?_eq_none.1 hf c hc
      exact Option.ne_none_iff_exists'.1 (by simpa using this)
    cases group with
    | nil =>
      refine ⟨[], ?_, merged_nil⟩
      cases k <;> rfl
    | cons first rest =>
      obtain ⟨size, hsize, -⟩ := hp first List.mem_cons_self
      obtain ⟨hm, hb⟩ := hL _ _ hsize
      have hinside : ∀ x ∈ (first :: rest).filterMap fun c => c.part.map (c, ·), k.Inside size x.2 := by
        intro x hx
        obtain ⟨c, hc, hcx⟩ := List.mem_filterMap.1 hx
        obtain ⟨p, hcp, rfl⟩ := Option.map_eq_some_iff.1 hcx
        obtain ⟨size', hsize', hin⟩ := hp c hc
        rw [(eq_of_groupKey_eq (hkey c hc first List.mem_cons_self)).1, hsize] at hsize'
        cases hsize'
        exact hin p hcp
      obtain ⟨runs, e, h⟩ := coalesce_coalesced hm hinside
      refine ⟨_, ?_, merged_runs hsize (fun c hc => hkey c hc first List.mem_cons_self) hparts h⟩
      simp only [mergeGroup, hf, e, hb]
      rfl

/-! ## Merging a batch -/

theorem mapM_merged {f : List (Barrier k) → Except Fault (List (Barrier k))} {groups : List (List (Barrier k))}
    (h : ∀ group ∈ groups, ∃ ms, f group = .ok ms ∧ Merged L group ms) :
    ∃ mss, groups.mapM f = .ok mss ∧ Merged L groups.flatten mss.flatten := by
  induction groups with
  | nil => exact ⟨[], rfl, merged_nil⟩
  | cons group groups ih =>
    obtain ⟨h1, h2⟩ := List.forall_mem_cons.1 h
    obtain ⟨ms, e, hm⟩ := h1
    obtain ⟨mss, e', hms⟩ := ih h2
    refine ⟨ms :: mss, ?_, ?_, fun c hc => ?_, fun n i s s' => ?_, fun c hc => ?_, fun c hc => ?_⟩
    · rw [List.mapM_cons, e, e']
      rfl
    · rw [List.flatten_cons, List.flatten_cons, List.length_append, List.length_append]
      exact Nat.add_le_add hm.fewer hms.fewer
    · rcases List.mem_append.1 hc with hc | hc
      · exact hm.placed c hc
      · exact hms.placed c hc
    · rw [List.flatten_cons, List.flatten_cons, List.countP_append, List.countP_append, hm.count, hms.count]
    · rcases List.mem_append.1 hc with hc | hc
      · obtain ⟨a, ha, hp⟩ := hm.origin c hc
        exact ⟨a, List.mem_append_left _ ha, hp⟩
      · obtain ⟨a, ha, hp⟩ := hms.origin c hc
        exact ⟨a, List.mem_append_right _ ha, hp⟩
    · rcases List.mem_append.1 hc with hc | hc
      · obtain ⟨m, hmem, hcm⟩ := hm.within c hc
        exact ⟨m, List.mem_append_left _ hmem, hcm⟩
      · obtain ⟨m, hmem, hcm⟩ := hms.within c hc
        exact ⟨m, List.mem_append_right _ hmem, hcm⟩

/-- **Merging the barriers of an exact difference never faults, and what is left is the same difference.** Each barrier
given is within one that is left, and these have not become more. -/
theorem Moves.merge {old new : States} {bs : List (Barrier k)} (h : Moves L old new bs)
    (hL : ∀ n size, L k n = some size → k.Measured size ∧ bounds n = .ok size) :
    ∃ ms, mergeBarriers bounds bs = .ok ms ∧ ms.length ≤ bs.length ∧ Moves L old new ms ∧
      ∀ c ∈ bs, ∃ m ∈ ms, c.Within L m := by
  have hperm := flatten_barrierGroups bs
  have hsorted := h.perm hperm.symm
  obtain ⟨mss, e, hm⟩ : ∃ mss, (barrierGroups bs).mapM (mergeGroup bounds) = .ok mss ∧
      Merged L (barrierGroups bs).flatten mss.flatten := by
    refine mapM_merged fun group hg => ?_
    have hsub := List.sublist_flatten_of_mem hg
    refine mergeGroup_merged hL (fun c hc => hsorted.placed c (hsub.subset hc))
      (fun a ha c hc => groupKey_eq_of_mem hg ha hc) fun n i s s' => ?_
    refine hsub.countP_le.trans ?_
    rw [hsorted.count]
    split
    · exact le_rfl
    · exact Nat.zero_le 1
  refine ⟨mss.flatten, ?_, hm.fewer.trans hperm.length_eq.le,
    ⟨h.same, hm.placed, fun b hb => ?_, fun n i s s' => ?_⟩, fun c hc => hm.within c (hperm.mem_iff.2 hc)⟩
  · rw [mergeBarriers, e]
    rfl
  · obtain ⟨c, hc, p, rfl⟩ := hm.origin b hb
    exact hsorted.changing c hc
  · rw [hm.count, hsorted.count]

/-! ## Merging every pass -/

theorem Registry.boundsOf_of_layout {g : Registry} {n : Nat} {size : k.Bounds} (h : g.layout k n = some size) :
    k.Measured size ∧ g.boundsOf k n = .ok size := by
  obtain ⟨r, hr, rfl⟩ := Option.map_eq_some_iff.1 h
  exact ⟨k.measured_bounds r.descriptor, by rw [Registry.boundsOf, hr]⟩

theorem mergeBatch_inv {g : Registry} {batch merged : Batch} {removed : Nat}
    (h : mergeBatch g batch = .ok (merged, removed)) (k : ResourceKind) :
    mergeBarriers (g.boundsOf k) (batch.get k) = .ok (merged.get k) := by
  obtain ⟨textures, ht, h⟩ := bind_eq_ok.1 h
  obtain ⟨buffers, hb, h⟩ := bind_eq_ok.1 h
  obtain ⟨counts, -, h⟩ := bind_eq_ok.1 h
  obtain ⟨removed', -, h⟩ := bind_eq_ok.1 h
  cases h
  cases k
  · exact ht
  · exact hb

theorem MergeCounts.add_eq_ok {a b : MergeCounts} (hin : a.input + b.input ≤ maxWord64)
    (hout : a.output + b.output ≤ maxWord64) : a.add b = .ok ⟨a.input + b.input, a.output + b.output⟩ := by
  rw [add, checkedAdd_eq_ok hin, checkedAdd_eq_ok hout]
  rfl

/-- merging an exact difference does not fault if its barriers can be counted, and counts what it removes -/
theorem mergeBatch_ok {g : Registry} {batch : Batch} {w w' : World}
    (h : ∀ k, Moves g.layout (w k) (w' k) (batch.get k)) (hcount : batch.count ≤ maxWord64) :
    ∃ merged removed, mergeBatch g batch = .ok (merged, removed) ∧ removed + merged.count = batch.count := by
  obtain ⟨ts, ht, hts, -⟩ := (h .texture).merge fun n size hn => Registry.boundsOf_of_layout hn
  obtain ⟨bs, hb, hbs, -⟩ := (h .buffer).merge fun n size hn => Registry.boundsOf_of_layout hn
  have hle : ts.length + bs.length ≤ batch.textures.length + batch.buffers.length := Nat.add_le_add hts hbs
  have hadd : MergeCounts.add ⟨batch.textures.length, ts.length⟩ ⟨batch.buffers.length, bs.length⟩ =
      .ok ⟨batch.textures.length + batch.buffers.length, ts.length + bs.length⟩ :=
    MergeCounts.add_eq_ok hcount (hle.trans hcount)
  refine ⟨⟨ts, bs⟩, batch.textures.length + batch.buffers.length - (ts.length + bs.length), ?_, Nat.sub_add_cancel hle⟩
  refine bind_eq_ok.2 ⟨ts, ht, bind_eq_ok.2 ⟨bs, hb, ?_⟩⟩
  exact bind_eq_ok.2 ⟨_, hadd, bind_eq_ok.2 ⟨_, checkedSub_eq_ok hle, rfl⟩⟩

/-- each barrier of a batch is within one of the other batch -/
def Batch.Within (L : Layout) (batch merged : Batch) : Prop := ∀ k, ∀ c ∈ batch.get k, ∃ m ∈ merged.get k, c.Within L m

/-- **Merging pass by pass, what each pass is granted stays the same,** and each barrier stays within one of its pass. -/
theorem Granted.mergeAll {g : Registry} {passes : List Pass} {w : World} {batches merged : Batches} {removed : Nat}
    (h : Granted g.layout passes w batches) (hm : mergeAll g batches = .ok (merged, removed)) :
    Granted g.layout passes w merged ∧
      List.Forall₂ (fun x y => x.1 = y.1 ∧ Batch.Within g.layout x.2 y.2) batches merged := by
  induction batches generalizing w merged removed with
  | nil =>
    cases hm
    exact ⟨trivial, List.Forall₂.nil⟩
  | cons x rest ih =>
    obtain ⟨i, batch⟩ := x
    obtain ⟨⟨batch', n⟩, hb, hm⟩ := bind_eq_ok.1 hm
    obtain ⟨⟨rest', n'⟩, hr, hm⟩ := bind_eq_ok.1 hm
    cases hm
    obtain ⟨h1, h2⟩ := ih h.2 hr
    have hmerge : ∀ k, Moves g.layout (w k) (w.grant g.layout passes i k) (batch'.get k) ∧
        ∀ c ∈ batch.get k, ∃ m ∈ batch'.get k, c.Within g.layout m := by
      intro k
      obtain ⟨ms, e, -, hms, hwithin⟩ := (h.1 k).merge fun n size hn => Registry.boundsOf_of_layout hn
      rw [mergeBatch_inv hb k] at e
      cases e
      exact ⟨hms, hwithin⟩
    exact ⟨⟨fun k => (hmerge k).1, h1⟩, List.Forall₂.cons ⟨rfl, fun k => (hmerge k).2⟩ h2⟩

/-- the number of barriers in some batches -/
def Batches.count (batches : Batches) : Nat := batches.textureCount + batches.bufferCount

theorem Batches.count_cons (i : Nat) (batch : Batch) (rest : Batches) :
    Batches.count ((i, batch) :: rest) = batch.count + rest.count := by
  simp only [count, textureCount, bufferCount, Batch.count, List.flatMap_cons, List.length_append]
  omega

/-- **Merging pass by pass does not fault** if the barriers can be counted, and each is left or counted as removed. -/
theorem Granted.mergeAll_ok {g : Registry} {passes : List Pass} {w : World} {batches : Batches}
    (h : Granted g.layout passes w batches) (hcount : batches.count ≤ maxWord64) :
    ∃ merged removed, FrameGraph.mergeAll g batches = .ok (merged, removed) ∧ removed + merged.count = batches.count := by
  induction batches generalizing w with
  | nil => exact ⟨[], 0, rfl, Nat.zero_add _⟩
  | cons x rest ih =>
    obtain ⟨i, batch⟩ := x
    rw [Batches.count_cons] at hcount
    obtain ⟨batch', n, hb, hn⟩ := mergeBatch_ok h.1 (by omega)
    obtain ⟨rest', n', hr, hn'⟩ := ih h.2 (by omega)
    refine ⟨(i, batch') :: rest', n + n', ?_, ?_⟩
    · rw [FrameGraph.mergeAll, hb]
      simp only [bind, Except.bind, hr]
      rfl
    · rw [Batches.count_cons, Batches.count_cons, ← hn, ← hn']
      omega

/-! ## Origins -/

/-- what a run carries beside its part is what a given one carries -/
def Comes (parts runs : List (β × k.Part)) : Prop := ∀ x ∈ runs, ∃ y ∈ parts, y.1 = x.1

section Origins

variable {parts runs others : List (β × k.Part)} {run next : β × k.Part}

theorem Comes.cons (h : Comes parts runs) (x : β × k.Part) : Comes (x :: parts) (x :: runs) :=
  List.forall_mem_cons.2 ⟨⟨x, List.mem_cons_self, rfl⟩, fun y hy => by
    obtain ⟨z, hz, e⟩ := h y hy
    exact ⟨z, List.mem_cons_of_mem x hz, e⟩⟩

theorem comes_joinNeighbours (h : joinNeighbours meets grow run parts = .ok runs) : Comes (run :: parts) runs := by
  induction parts generalizing run runs with
  | nil =>
    cases h
    exact fun x hx => ⟨x, hx, rfl⟩
  | cons next rest ih =>
    unfold joinNeighbours at h
    split at h
    · obtain ⟨part, -, h⟩ := bind_eq_ok.1 h
      intro x hx
      obtain ⟨y, hy, e⟩ := ih h x hx
      rcases List.mem_cons.1 hy with rfl | hy
      · exact ⟨run, List.mem_cons_self, e⟩
      · exact ⟨y, List.mem_cons_of_mem _ (List.mem_cons_of_mem _ hy), e⟩
    · obtain ⟨later, hlater, h⟩ := bind_eq_ok.1 h
      cases h
      exact (ih hlater).cons run

theorem comes_joinFirst (h : joinFirst meets grow next parts = .ok runs) : Comes (next :: parts) runs := by
  induction parts generalizing runs with
  | nil =>
    cases h
    exact fun x hx => ⟨x, hx, rfl⟩
  | cons run rest ih =>
    unfold joinFirst at h
    split at h
    · obtain ⟨part, -, h⟩ := bind_eq_ok.1 h
      cases h
      intro x hx
      rcases List.mem_cons.1 hx with rfl | hx
      · exact ⟨run, List.mem_cons_of_mem _ List.mem_cons_self, rfl⟩
      · exact ⟨x, List.mem_cons_of_mem _ (List.mem_cons_of_mem _ hx), rfl⟩
    · obtain ⟨later, hlater, h⟩ := bind_eq_ok.1 h
      cases h
      intro x hx
      rcases List.mem_cons.1 hx with rfl | hx
      · exact ⟨x, List.mem_cons_of_mem _ List.mem_cons_self, rfl⟩
      · obtain ⟨y, hy, e⟩ := ih hlater x hx
        rcases List.mem_cons.1 hy with rfl | hy
        · exact ⟨y, List.mem_cons_self, e⟩
        · exact ⟨y, List.mem_cons_of_mem _ (List.mem_cons_of_mem _ hy), e⟩

theorem comes_foldlM_joinFirst
    (h : parts.foldlM (fun runs next => joinFirst meets grow next runs) runs = .ok others) :
    Comes (parts ++ runs) others := by
  induction parts generalizing runs with
  | nil =>
    cases h
    exact fun x hx => ⟨x, hx, rfl⟩
  | cons next rest ih =>
    rw [List.foldlM_cons] at h
    obtain ⟨mid, hmid, h⟩ := bind_eq_ok.1 h
    intro x hx
    obtain ⟨y, hy, e⟩ := ih h x hx
    rcases List.mem_append.1 hy with hy | hy
    · exact ⟨y, List.mem_cons_of_mem _ (List.mem_append_left _ hy), e⟩
    · obtain ⟨z, hz, e'⟩ := comes_joinFirst hmid y hy
      refine ⟨z, ?_, e'.trans e⟩
      rcases List.mem_cons.1 hz with rfl | hz
      · exact List.mem_cons_self
      · exact List.mem_cons_of_mem _ (List.mem_append_right _ hz)

theorem comes_coalesce (h : k.coalesce parts = .ok runs) : Comes parts runs := by
  have hneighbours : ∀ {meets : k.Part → k.Part → Bool} {grow : k.Part → k.Part → Except Fault k.Part}
      {runs : List (β × k.Part)}, neighbourRuns meets grow parts = .ok runs → Comes parts runs := by
    intro meets grow runs h
    cases parts with
    | nil =>
      cases h
      exact fun x hx => ⟨x, hx, rfl⟩
    | cons first rest => exact comes_joinNeighbours h
  cases k with
  | texture =>
    obtain ⟨mid, hmid, h⟩ := bind_eq_ok.1 h
    intro x hx
    obtain ⟨y, hy, e⟩ := comes_foldlM_joinFirst h x hx
    rw [List.append_nil] at hy
    obtain ⟨z, hz, e'⟩ := hneighbours hmid y hy
    exact ⟨z, hz, e'.trans e⟩
  | buffer => exact hneighbours h

/-- each barrier left of a group is one of it with another part -/
theorem exists_of_mergeGroup {ms : List (Barrier k)} (h : mergeGroup bounds group = .ok ms) :
    ∀ m ∈ ms, ∃ c ∈ group, ∃ p, m = { c with part := p } := by
  unfold mergeGroup at h
  split at h
  · rename_i whole hf
    cases h
    intro m hm
    exact ⟨whole, List.mem_of_find?_eq_some hf, whole.part, List.mem_singleton.1 hm⟩
  · obtain ⟨runs, hruns, h⟩ := bind_eq_ok.1 h
    split at h
    · cases h
      exact fun m hm => (List.not_mem_nil hm).elim
    · obtain ⟨size, -, h⟩ := bind_eq_ok.1 h
      cases h
      intro m hm
      obtain ⟨⟨b, q⟩, hx, rfl⟩ := List.mem_map.1 hm
      obtain ⟨y, hy, e⟩ := comes_coalesce hruns (b, q) hx
      obtain ⟨c, hc, hcy⟩ := List.mem_filterMap.1 hy
      obtain ⟨p, -, rfl⟩ := Option.map_eq_some_iff.1 hcy
      obtain rfl : c = b := e
      exact ⟨c, hc, _, rfl⟩

theorem exists_of_mergeBarriers {bs ms : List (Barrier k)} (h : mergeBarriers bounds bs = .ok ms) :
    ∀ m ∈ ms, ∃ c ∈ bs, ∃ p, m = { c with part := p } := by
  have hgroups : ∀ {groups mss : List (List (Barrier k))}, groups.mapM (mergeGroup bounds) = .ok mss →
      ∀ m ∈ mss.flatten, ∃ c ∈ groups.flatten, ∃ p, m = { c with part := p } := by
    intro groups
    induction groups with
    | nil =>
      intro mss h
      cases h
      exact fun m hm => (List.not_mem_nil hm).elim
    | cons group groups ih =>
      intro mss h
      rw [List.mapM_cons] at h
      obtain ⟨ms, hms, h⟩ := bind_eq_ok.1 h
      obtain ⟨later, hlater, h⟩ := bind_eq_ok.1 h
      cases h
      intro m hm
      rcases List.mem_append.1 hm with hm | hm
      · obtain ⟨c, hc, hp⟩ := exists_of_mergeGroup hms m hm
        exact ⟨c, List.mem_append_left _ hc, hp⟩
      · obtain ⟨c, hc, hp⟩ := ih hlater m hm
        exact ⟨c, List.mem_append_right _ hc, hp⟩
  obtain ⟨mss, hmss, h⟩ := bind_eq_ok.1 h
  cases h
  intro m hm
  obtain ⟨c, hc, hp⟩ := hgroups hmss m hm
  exact ⟨c, (flatten_barrierGroups bs).mem_iff.1 hc, hp⟩

end Origins

/-- each barrier of a batch is one of the other batch with another part -/
def Batch.From (batch merged : Batch) : Prop :=
  ∀ k, ∀ b ∈ merged.get k, ∃ c ∈ batch.get k, ∃ p, b = { c with part := p }

/-- **Each barrier left after merging is one of its pass with another part.** -/
theorem mergeAll_from {g : Registry} {batches merged : Batches} {removed : Nat}
    (h : mergeAll g batches = .ok (merged, removed)) :
    List.Forall₂ (fun x y => x.1 = y.1 ∧ Batch.From x.2 y.2) batches merged := by
  induction batches generalizing merged removed with
  | nil =>
    cases h
    exact List.Forall₂.nil
  | cons x rest ih =>
    obtain ⟨i, batch⟩ := x
    obtain ⟨⟨batch', n⟩, hb, h⟩ := bind_eq_ok.1 h
    obtain ⟨⟨rest', n'⟩, hr, h⟩ := bind_eq_ok.1 h
    cases h
    exact List.Forall₂.cons ⟨rfl, fun k => exists_of_mergeBarriers (mergeBatch_inv hb k)⟩ (ih hr)

end FrameGraph
