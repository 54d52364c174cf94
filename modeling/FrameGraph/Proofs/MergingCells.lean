/-
Merging single cells gives one result, and it cannot be merged further.

Cells sorted by layer and level are joined along the levels first. The rows that gives have gaps between them
(`separating_rows`). Each row is then joined to the first rectangle it continues, and no two of the rectangles can be
joined: they only grow downwards, and a row comes after every rectangle that is there (`Below`, `below_joinFirst`). That
fails for rectangles in general, which may be joined in more than one way.

- `Cellwise`: barriers of single cells, none of which is twice in a group.
- `pairwise_runs`: the rectangles a group of cells is joined to.
- `exists_covers`: of rectangles without gaps to be joined at that are every cell once, one is the whole texture.
- `mergeBarriers_cells`: merging does not depend on the order of the barriers, merges no further when repeated, leaves no
  two barriers that could be joined, and makes one barrier of a group that has every cell.
-/
import FrameGraph.Proofs.Coalescing

namespace FrameGraph

open ResourceKind

variable {β : Type} {e : Extent} {p q r c : Subresources}

/-! ## Rows -/

theorem growMips_eq_ok (h : p.growMips q = .ok c) : c = { p with mipCount := p.mipCount + q.mipCount } := by
  unfold Subresources.growMips checkedAdd at h
  split at h
  · exact (Except.ok.inj h).symm
  · cases h

theorem growLayers_eq_ok (h : p.growLayers q = .ok c) : c = { p with layerCount := p.layerCount + q.layerCount } := by
  unfold Subresources.growLayers checkedAdd at h
  split at h
  · exact (Except.ok.inj h).symm
  · cases h

/-- the first rectangle begins on an earlier layer, or on the same one and there is a gap after its levels -/
def Apart (p q : Subresources) : Prop :=
  p.baseLayer < q.baseLayer ∨ p.baseLayer = q.baseLayer ∧ p.baseMip + p.mipCount < q.baseMip

/-- rectangles of equally many layers of which the second comes after the first, with or without a gap -/
def RowBefore (p q : Subresources) : Prop :=
  p.layerCount = q.layerCount ∧ q.baseMip ≤ maxWord32 ∧
    (p.baseLayer < q.baseLayer ∨ p.baseLayer = q.baseLayer ∧ p.baseMip + p.mipCount ≤ q.baseMip)

theorem separating_rows : Separating Subresources.meetsMips Subresources.growMips RowBefore Apart where
  gap := fun p q ⟨hcount, hmax, hplace⟩ hmeets => by
    refine hplace.imp_right fun ⟨hlayer, hle⟩ => ⟨hlayer, lt_of_le_of_ne hle fun heq => ?_⟩
    rw [Subresources.meetsMips, Subresources.mipEnd, saturatingAdd_eq (hle.trans hmax), hlayer, hcount, heq] at hmeets
    simp at hmeets
  trans := fun p q r hpq ⟨_, _, hqr⟩ => by
    unfold Apart at *
    omega
  grow_right := fun w p q c hwp hgrow => by
    rw [growMips_eq_ok hgrow]
    exact hwp
  grow_left := fun p q r c ⟨hcount, hmax, hpq⟩ hmeets hgrow ⟨hcount', hmax', hqr⟩ => by
    simp only [Subresources.meetsMips, Bool.and_eq_true, beq_iff_eq] at hmeets
    obtain ⟨⟨hlayer, -⟩, hend⟩ := hmeets
    have hle : p.baseMip + p.mipCount ≤ q.baseMip := (hpq.resolve_left hlayer.not_lt).2
    rw [Subresources.mipEnd, saturatingAdd_eq (hle.trans hmax)] at hend
    rw [growMips_eq_ok hgrow]
    refine ⟨hcount.trans hcount', hmax', ?_⟩
    simp only
    omega

/-! ## Rectangles -/

/-- rectangles that come one after the other and cannot be joined along the layers -/
def Below (p q : Subresources) : Prop := Apart p q ∧ p.meetsLayers q = false

theorem Apart.layer_le (h : Apart p q) : p.baseLayer ≤ q.baseLayer :=
  h.elim Nat.le_of_lt fun h => h.1.le

/-- a rectangle that has grown downwards by a row ends below what begins no later than the row -/
theorem meetsLayers_grown (he : texture.Measured e) (hp : texture.Inside e p) (hr : texture.Inside e r)
    (hmeets : p.meetsLayers r = true) (hgrow : p.growLayers r = .ok c) (hq : q.baseLayer ≤ r.baseLayer) :
    c.meetsLayers q = false := by
  obtain ⟨-, -, hl⟩ := he
  obtain ⟨-, hp0, hp1⟩ := hp
  obtain ⟨-, hr0, hr1⟩ := hr
  simp only [Subresources.meetsLayers, Bool.and_eq_true, beq_iff_eq] at hmeets
  obtain ⟨-, hend⟩ := hmeets
  rw [Subresources.layerEnd, saturatingAdd_eq (hp1.trans hl)] at hend
  rw [growLayers_eq_ok hgrow, ← Bool.not_eq_true, Subresources.meetsLayers, Subresources.layerEnd,
    saturatingAdd_eq (by simp only; omega), Bool.and_eq_true, beq_iff_eq]
  simp only
  omega

section Rectangles

variable {runs rows out : List (β × Subresources)} {row : β × Subresources}

/-- a row that comes after all rectangles is joined to one of them or becomes one, and they still cannot be joined -/
theorem below_joinFirst (he : texture.Measured e) (hin : ∀ x ∈ runs, texture.Inside e x.2) (hrow : texture.Inside e row.2)
    (hruns : runs.Pairwise fun x y => Below x.2 y.2) (hafter : ∀ x ∈ runs, Apart x.2 row.2)
    (h : joinFirst Subresources.meetsLayers Subresources.growLayers row runs = .ok out) :
    out.Pairwise fun x y => Below x.2 y.2 := by
  rcases joinFirst_cases h with ⟨front, x, back, c, rfl, hmeets, hgrow, rfl⟩ | ⟨hnone, rfl⟩
  · have hbelow : ∀ y ∈ back, c.meetsLayers y.2 = false := fun y hy =>
      meetsLayers_grown he (hin x (by simp)) hrow hmeets hgrow (hafter y (by simp [hy])).layer_le
    obtain rfl := growLayers_eq_ok hgrow
    rw [List.pairwise_append, List.pairwise_cons] at hruns ⊢
    obtain ⟨hfront, ⟨hx, hback⟩, hcross⟩ := hruns
    refine ⟨hfront, ⟨fun y hy => ⟨(hx y hy).1, hbelow y hy⟩, hback⟩, fun w hw y hy => ?_⟩
    rcases List.mem_cons.1 hy with rfl | hy
    · exact hcross w hw x List.mem_cons_self
    · exact hcross w hw y (List.mem_cons_of_mem _ hy)
  · rw [List.pairwise_append]
    refine ⟨hruns, List.pairwise_singleton _ row, fun x hx y hy => ?_⟩
    rw [List.mem_singleton.1 hy]
    exact ⟨hafter x hx, hnone x hx⟩

theorem below_foldlM (he : texture.Measured e) (hin : ∀ x ∈ runs, texture.Inside e x.2)
    (hrows : ∀ x ∈ rows, texture.Inside e x.2) (hruns : runs.Pairwise fun x y => Below x.2 y.2)
    (hgaps : rows.Pairwise fun x y => Apart x.2 y.2) (hafter : ∀ x ∈ runs, ∀ y ∈ rows, Apart x.2 y.2)
    (h : rows.foldlM (fun runs row => joinFirst Subresources.meetsLayers Subresources.growLayers row runs) runs =
      .ok out) :
    out.Pairwise fun x y => Below x.2 y.2 := by
  induction rows generalizing runs with
  | nil =>
    cases h
    exact hruns
  | cons row rest ih =>
    rw [List.foldlM_cons] at h
    obtain ⟨mid, hmid, h⟩ := bind_eq_ok.1 h
    obtain ⟨hrow, hrest⟩ := List.forall_mem_cons.1 hrows
    obtain ⟨hnext, hgaps⟩ := List.pairwise_cons.1 hgaps
    have hbelow := below_joinFirst he hin hrow hruns (fun x hx => hafter x hx row List.mem_cons_self) hmid
    refine ih ?_ hrest hbelow hgaps (fun x hx y hy => ?_) h
    · refine forall_of_joinFirst (Q := texture.Inside e) (fun p c hp hmeets hgrow => ?_) hmid hrow hin
      obtain ⟨c', hc', hinside, -⟩ := joins_layers he p row.2 hp hrow hmeets
      rw [hgrow] at hc'
      cases hc'
      exact hinside
    · refine forall_of_joinFirst (Q := fun p => Apart p y.2) (fun p c hp _ hgrow => ?_) hmid (hnext y hy)
        (fun x hx => hafter x hx y (List.mem_cons_of_mem _ hy)) x hx
      rw [growLayers_eq_ok hgrow]
      exact hp

/-- **Rows in order are joined to rectangles of which none continues an earlier one.** -/
theorem below_coalesce (he : texture.Measured e) {parts : List (β × Subresources)}
    (hin : ∀ x ∈ parts, texture.Inside e x.2)
    (hrows : parts.Pairwise fun x y => RowBefore x.2 y.2) (h : texture.coalesce parts = .ok runs) :
    runs.Pairwise fun x y => Below x.2 y.2 := by
  obtain ⟨rows, hjoin, h⟩ := bind_eq_ok.1 h
  obtain ⟨rows', hjoin', hcoalesced⟩ := neighbourRuns_coalesced (joins_mips he) hin
  obtain rfl : rows = rows' := Except.ok.inj (hjoin.symm.trans hjoin')
  exact below_foldlM he (fun x hx => absurd hx List.not_mem_nil) hcoalesced.inside List.Pairwise.nil
    (separating_rows.neighbourRuns hjoin hrows) (fun x hx => absurd hx List.not_mem_nil) h

end Rectangles

/-- such rectangles are in order and cannot be joined at all -/
theorem Below.settled (h : Below p q) : texture.placeKey p ≤ texture.placeKey q ∧ texture.joins p q = false := by
  obtain ⟨hapart, hlayers⟩ := h
  have hend : p.mipEnd ≤ p.baseMip + p.mipCount := Nat.min_le_left _ _
  unfold Apart at hapart
  rw [texture_placeKey_le_iff, joins, hlayers, Bool.or_false, ← Bool.not_eq_true, Subresources.meetsMips, Bool.and_eq_true,
    Bool.and_eq_true, beq_iff_eq, beq_iff_eq, beq_iff_eq]
  omega

/-! ## A full grid -/

/-- the rectangle has the cell -/
def Subresources.Has (p : Subresources) (mip layer : Nat) : Prop :=
  (p.baseMip ≤ mip ∧ mip < p.baseMip + p.mipCount) ∧ p.baseLayer ≤ layer ∧ layer < p.baseLayer + p.layerCount

theorem holds_cellIndex_iff {mip layer : Nat} (hm : mip < e.mips) :
    texture.holds e p (e.cellIndex mip layer) = true ↔ p.Has mip layer := by
  obtain ⟨h1, h2⟩ : e.cellIndex mip layer % e.mips = mip ∧ e.cellIndex mip layer / e.mips = layer := cellIndex_mod hm
  rw [holds_texture, h1, h2, Subresources.Has]

/-- rectangles that are every cell of a texture once; on one layer there are gaps between them, and none continues
another one downwards -/
structure Gridded (e : Extent) (ps : List Subresources) : Prop where
  inside : ∀ p ∈ ps, texture.Inside e p
  every : ∀ mip < e.mips, ∀ layer < e.layers, ∃ p ∈ ps, p.Has mip layer
  once : ∀ p ∈ ps, ∀ q ∈ ps, ∀ mip layer, p.Has mip layer → q.Has mip layer → p = q
  gap : ∀ p ∈ ps, ∀ q ∈ ps, p.baseLayer = q.baseLayer → p ≠ q →
    p.baseMip + p.mipCount < q.baseMip ∨ q.baseMip + q.mipCount < p.baseMip
  unjoined : ∀ p ∈ ps, ∀ q ∈ ps, p.meetsLayers q = false

namespace Gridded

variable {ps : List Subresources}

/-- if all rectangles on a layer begin there, the one at its first level has all levels -/
theorem full_row (h : Gridded e ps) {l : Nat} (hl : l < e.layers)
    (hbase : ∀ q ∈ ps, ∀ mip, q.Has mip l → q.baseLayer = l) (hp : p ∈ ps) (hhas : p.Has 0 l) : e.mips ≤ p.mipCount := by
  by_contra hlt
  have hp0 : p.baseMip ≤ 0 := hhas.1.1
  -- the rectangle with the next level would begin on the same layer, and there is no gap
  obtain ⟨q, hq, hqhas⟩ := h.every p.mipCount (by omega) l hl
  have hlayer : p.baseLayer = q.baseLayer := by rw [hbase p hp 0 hhas, hbase q hq _ hqhas]
  have hne : p ≠ q := by
    rintro rfl
    obtain ⟨⟨-, hend⟩, -⟩ := hqhas
    omega
  have hgap := h.gap p hp q hq hlayer hne
  obtain ⟨⟨hq0, hq1⟩, -⟩ := hqhas
  omega

/-- **A full grid is one rectangle.** -/
theorem exists_covers (h : Gridded e ps) (he : texture.Measured e) : ∃ p ∈ ps, texture.covers e p = true := by
  obtain ⟨⟨hm, -⟩, hl, hmax⟩ := he
  obtain ⟨p, hp, hhas⟩ := h.every 0 hm 0 hl
  obtain ⟨⟨hp0, hp1⟩, hp2, hp3⟩ := hhas
  have hmips : e.mips ≤ p.mipCount :=
    h.full_row hl (fun q _ mip hq => Nat.le_zero.1 hq.2.1) hp ⟨⟨hp0, hp1⟩, hp2, hp3⟩
  have hlayers : e.layers ≤ p.layerCount := by
    by_contra hlt
    have hnext : p.layerCount < e.layers := Nat.lt_of_not_le hlt
    -- the rectangles on the layer below this one all begin there, as this one has the layers above
    have hbase : ∀ q ∈ ps, ∀ mip, q.Has mip p.layerCount → q.baseLayer = p.layerCount := by
      intro q hq mip ⟨⟨hq0, hq1⟩, hq2, hq3⟩
      obtain ⟨⟨hq4, hq5⟩, hq6, hq7⟩ := h.inside q hq
      by_contra hne
      have hsame : p = q := by
        refine h.once p hp q hq mip q.baseLayer ⟨⟨?_, ?_⟩, ?_, ?_⟩ ⟨⟨hq0, hq1⟩, le_rfl, ?_⟩ <;> omega
      subst hsame
      omega
    obtain ⟨q, hq, hqhas⟩ := h.every 0 hm p.layerCount hnext
    have hqlayer : q.baseLayer = p.layerCount := hbase q hq 0 hqhas
    have hqmips : e.mips ≤ q.mipCount := h.full_row hnext hbase hq hqhas
    obtain ⟨⟨hpe, hpe'⟩, -, hpl⟩ := h.inside p hp
    obtain ⟨⟨hqe, hqe'⟩, -, -⟩ := h.inside q hq
    have hmeets := h.unjoined p hp q hq
    rw [← Bool.not_eq_true, Subresources.meetsLayers, Subresources.layerEnd, saturatingAdd_eq (hpl.trans hmax),
      Bool.and_eq_true, Bool.and_eq_true, beq_iff_eq, beq_iff_eq, beq_iff_eq] at hmeets
    obtain ⟨⟨hq0, -⟩, -⟩ := hqhas
    omega
  refine ⟨p, hp, ?_⟩
  simp only [covers, Subresources.covers, Bool.and_eq_true, beq_iff_eq, decide_eq_true_eq]
  omega

end Gridded

/-- what does not continue a later rectangle nor an earlier one -/
theorem Below.not_meets (he : texture.Measured e) (hq : texture.Inside e q) (h : Below p q) : q.meetsLayers p = false := by
  have hworded : texture.Worded e := ⟨he.1.2, he.2.2⟩
  have hjoins := joins_eq_false_of_placeKey_le hworded hq h.settled.1
  exact (Bool.or_eq_false_iff.1 hjoins).2

theorem gridded_of_below (he : texture.Measured e) {ps : List Subresources} (hin : ∀ p ∈ ps, texture.Inside e p)
    (honce : ∀ i, ps.countP (fun p => texture.holds e p i) ≤ 1) (hbelow : ps.Pairwise Below)
    (hevery : ∀ mip < e.mips, ∀ layer < e.layers, ∃ p ∈ ps, p.Has mip layer) : Gridded e ps := by
  let R : Subresources → Subresources → Prop := fun p q => ∀ i, ¬ (texture.holds e p i = true ∧ texture.holds e q i = true)
  have hapart : ps.Pairwise R := pairwise_of_countP_le_one (p := fun i p => texture.holds e p i) honce
  have : Std.Symm R := ⟨fun p q h i hi => h i hi.symm⟩
  let S : Subresources → Subresources → Prop := fun p q =>
    (p.baseLayer = q.baseLayer → p.baseMip + p.mipCount < q.baseMip ∨ q.baseMip + q.mipCount < p.baseMip) ∧
      p.meetsLayers q = false ∧ q.meetsLayers p = false
  have : Std.Symm S := ⟨fun p q h => ⟨fun hl => (h.1 hl.symm).symm, h.2.2, h.2.1⟩⟩
  have hgaps : ps.Pairwise S := hbelow.imp_of_mem fun {p q} _ hq h =>
    ⟨fun hl => Or.inl (h.1.resolve_left hl.not_lt).2, h.2, h.not_meets he (hin q hq)⟩
  refine ⟨hin, hevery, fun p hp q hq mip layer hpm hqm => ?_, fun p hp q hq hl hne => (hgaps.forall hp hq hne).1 hl,
    fun p hp q hq => ?_⟩
  · by_contra hne
    have hm : mip < e.mips := hpm.1.2.trans_le (hin p hp).1.2
    exact hapart.forall hp hq hne (e.cellIndex mip layer) ⟨(holds_cellIndex_iff hm).2 hpm, (holds_cellIndex_iff hm).2 hqm⟩
  · by_cases hne : p = q
    · obtain ⟨-, hl, hl'⟩ := hin q hq
      rw [hne, ← Bool.not_eq_true, Subresources.meetsLayers, Subresources.layerEnd, saturatingAdd_eq (hl'.trans he.2.2),
        Bool.and_eq_true, beq_iff_eq]
      omega
    · exact (hgaps.forall hp hq hne).2.1

/-! ## Merging -/

/-- barriers of single cells of their textures, none of which is twice in a group; those of one texture are of one native
object -/
structure Cellwise (size : Nat → Extent) (bs : List (Barrier .texture)) : Prop where
  cell : ∀ b ∈ bs, ∃ mip layer, b.part = some (.cell mip layer) ∧ mip < (size b.resource).mips ∧
    layer < (size b.resource).layers
  once : bs.Pairwise fun a c => a.groupKey = c.groupKey → a.part ≠ c.part
  native : ∀ a ∈ bs, ∀ c ∈ bs, a.resource = c.resource → a.native = c.native

namespace Cellwise

variable {size : Nat → Extent} {bs ms : List (Barrier .texture)} {b a : Barrier .texture}

theorem fitting (h : Cellwise size bs) : ∀ b ∈ bs, b.Fitting size := by
  intro b hb p hp
  obtain ⟨mip, layer, hpart, hm, hl⟩ := h.cell b hb
  rw [hpart] at hp
  cases hp
  exact ⟨⟨Nat.one_pos, hm⟩, Nat.one_pos, hl⟩

theorem part_ne_none (h : Cellwise size bs) {key : List Nat} : ∀ b ∈ ofGroup key bs, b.part ≠ none := by
  intro b hb
  obtain ⟨mip, layer, hpart, -⟩ := h.cell b (mem_ofGroup.1 hb).1
  rw [hpart]
  exact Option.some_ne_none _

theorem part_ne (h : Cellwise size bs) (key : List Nat) : (ofGroup key bs).Pairwise fun a c => a.part ≠ c.part :=
  (h.once.sublist List.filter_sublist).imp_of_mem fun {_ _} ha hc hac =>
    hac (groupKey_eq_of_mem_ofGroup ha hc)

/-- different cells of a texture have no address in common -/
theorem apart (h : Cellwise size bs) (key : List Nat) : (ofGroup key bs).Pairwise (Barrier.PartsApart size) := by
  refine (h.part_ne key).imp_of_mem fun {a c} ha hc hac p q hp hq i hi => hac ?_
  obtain ⟨mip, layer, hpart, -⟩ := h.cell a (mem_ofGroup.1 ha).1
  obtain ⟨mip', layer', hpart', -⟩ := h.cell c (mem_ofGroup.1 hc).1
  rw [hpart] at hp
  rw [hpart'] at hq
  cases hp
  cases hq
  rw [resource_eq_of_mem_ofGroup ha hc, holds_texture, holds_texture] at hi
  simp only [Subresources.cell, Subresources.ofMips] at hi
  rw [hpart, hpart', show mip = mip' by omega, show layer = layer' by omega]

/-- the cells of a group, sorted, are rows in order -/
theorem rows (hsize : ∀ n, texture.Worded (size n)) (h : Cellwise size bs) (key : List Nat) :
    (partsOf (ofGroup key (sortOn Barrier.sortKey bs))).Pairwise fun x y => RowBefore x.2 y.2 := by
  refine pairwise_partsOf (pairwise_sorted_group Ne.symm (h.part_ne key)) fun a ha c hc hac p q hp hq => ?_
  have hmem : ∀ b ∈ ofGroup key (sortOn Barrier.sortKey bs), b ∈ bs := fun b hb => mem_sortOn.1 (mem_ofGroup.1 hb).1
  obtain ⟨mip, layer, hpart, -⟩ := h.cell a (hmem a ha)
  obtain ⟨mip', layer', hpart', hm', -⟩ := h.cell c (hmem c hc)
  obtain ⟨hplace, hne⟩ := hac
  rw [Barrier.placeKey_some hp, Barrier.placeKey_some hq, cons_le_cons_iff, texture_placeKey_le_iff] at hplace
  rw [hpart] at hp hne
  rw [hpart'] at hq hne
  cases hp
  cases hq
  have hmax : mip' ≤ maxWord32 := hm'.le.trans (hsize c.resource).1
  have hcell : ¬ (mip = mip' ∧ layer = layer') := fun heq => hne (by rw [heq.1, heq.2])
  simp only [RowBefore, Subresources.cell, Subresources.ofMips, true_and] at hplace ⊢
  omega

/-- two cells with one sort key are the same barrier -/
theorem eq_of_sortKey (h : Cellwise size bs) (ha : a ∈ bs) (hb : b ∈ bs) (hkey : a.sortKey = b.sortKey) : a = b := by
  obtain ⟨hgroup, hplace⟩ := Barrier.sortKey_eq_iff.1 hkey
  obtain ⟨mip, layer, hpart, -⟩ := h.cell a ha
  obtain ⟨mip', layer', hpart', -⟩ := h.cell b hb
  refine Barrier.eq_of_groupKey hgroup (h.native a ha b hb (groupKey_eq_iff.1 hgroup).1) ?_
  rw [Barrier.placeKey_some hpart, Barrier.placeKey_some hpart'] at hplace
  simp only [placeKey, Subresources.cell, Subresources.ofMips, List.cons.injEq, true_and, and_true] at hplace
  rw [hpart, hpart', hplace.1, hplace.2]

theorem measured (hsize : ∀ n, texture.Worded (size n)) (h : Cellwise size bs) (hb : b ∈ bs) :
    texture.Measured (size b.resource) := by
  obtain ⟨mip, layer, hpart, -⟩ := h.cell b hb
  exact measured_of_inside (hsize _) (h.fitting b hb _ hpart)

/-- the rectangles a group of cells is joined to -/
theorem below_runs (hsize : ∀ n, texture.Worded (size n)) (h : Cellwise size bs) (hb : b ∈ bs)
    {runs : List (Barrier .texture × Subresources)} (hr : Runs size bs ms b runs) :
    runs.Pairwise fun x y => Below x.2 y.2 := by
  refine below_coalesce (h.measured hsize hb) (fun x hx => ?_) (h.rows hsize _) hr.joined
  obtain ⟨hx, hpart⟩ := mem_partsOf.1 hx
  obtain ⟨hmem, hkey⟩ := mem_ofGroup.1 hx
  rw [← (groupKey_eq_iff.1 hkey).1]
  exact h.fitting x.1 (mem_sortOn.1 hmem) x.2 hpart

/-- a group that has every cell of its texture is joined to one rectangle, which is the whole texture -/
theorem runs_of_every (hsize : ∀ n, texture.Worded (size n)) (h : Cellwise size bs) (hb : b ∈ bs)
    {runs : List (Barrier .texture × Subresources)} (hr : Runs size bs ms b runs)
    (hevery : ∀ mip < (size b.resource).mips, ∀ layer < (size b.resource).layers,
      ∃ a ∈ ofGroup b.groupKey bs, a.part = some (.cell mip layer)) :
    ∃ x, runs = [x] ∧ texture.covers (size b.resource) x.2 = true := by
  have he := h.measured hsize hb
  have hgrid : Gridded (size b.resource) (runs.map Prod.snd) := by
    refine gridded_of_below he (List.forall_mem_map.2 hr.coalesced.inside) (fun i => ?_)
      (List.pairwise_map.2 (h.below_runs hsize hb hr)) fun mip hm layer hl => ?_
    · rw [List.countP_map]
      exact hr.once (h.apart _) i
    · obtain ⟨a, ha, hpart⟩ := hevery mip hm layer hl
      have hcell : (Subresources.cell mip layer).Has mip layer :=
        ⟨⟨le_rfl, Nat.lt_succ_self mip⟩, le_rfl, Nat.lt_succ_self layer⟩
      obtain ⟨x, hx, hi⟩ := (hr.exists_holds_iff _).2 ⟨a, ha, _, hpart, (holds_cellIndex_iff hm).2 hcell⟩
      exact ⟨x.2, List.mem_map_of_mem hx, (holds_cellIndex_iff hm).1 hi⟩
  obtain ⟨p, hp, hcovers⟩ := hgrid.exists_covers he
  obtain ⟨x, hx, rfl⟩ := List.mem_map.1 hp
  exact ⟨x, eq_singleton_of_covers hr.coalesced.inside (hr.once (h.apart _)) hx hcovers, hcovers⟩

end Cellwise

/-- **Merging single cells is canonical.** It goes well and does not depend on the order of the barriers; merging what it
gives changes nothing; no two barriers it leaves of a group could be joined; and a group that has every cell of its
texture becomes one barrier of the whole texture. -/
theorem mergeBarriers_cells {size : Nat → Extent} {bs : List (Barrier .texture)} (hsize : ∀ n, texture.Worded (size n))
    (h : Cellwise size bs) :
    ∃ ms, (∀ cs, bs.Perm cs → mergeBarriers (fun n => .ok (size n)) cs = .ok ms) ∧
      mergeBarriers (fun n => .ok (size n)) ms = .ok ms ∧
      (∀ key, (ofGroup key ms).Pairwise Barrier.Unjoinable) ∧
      ∀ b ∈ bs, (∀ mip < (size b.resource).mips, ∀ layer < (size b.resource).layers,
          ∃ a ∈ ofGroup b.groupKey bs, a.part = some (.cell mip layer)) →
        ofGroup b.groupKey ms = [{ b with part := none }] := by
  obtain ⟨ms, hms, -, -, hperm, hfixed, hunjoined⟩ := mergeBarriers_settles hsize h.fitting
    (fun a ha c hc => h.eq_of_sortKey ha hc) h.apart fun c hc _ _ hr => (h.below_runs hsize hc hr).imp Below.settled
  refine ⟨ms, hperm, hfixed, hunjoined, fun b hb hevery => ?_⟩
  obtain ⟨runs, hr⟩ := exists_runs hsize h.fitting hms (c := b) h.part_ne_none
  obtain ⟨x, rfl, hcovers⟩ := h.runs_of_every hsize hb hr hevery
  obtain ⟨hx, hkey⟩ := mem_ofGroup.1 (hr.mem (List.mem_singleton_self x))
  have hspanning : x.1.spanning (size b.resource) x.2 = { b with part := none } :=
    Barrier.eq_of_groupKey hkey (h.native _ hx b hb (groupKey_eq_iff.1 hkey).1) (if_pos hcovers)
  rw [hr.left, List.map_singleton, hspanning]

/-- a texture all of whose cells are given, and one with a hole -/
theorem mergeBarriers_cells_hole :
    let size : Nat → Extent := fun _ => ⟨2, 3⟩
    let cells : Nat → List (Nat × Nat) → List (Barrier .texture) := fun n cs =>
      cs.map fun x => toTarget n (some (.cell x.1 x.2))
    let bs := cells 0 [(1, 2), (0, 0), (1, 1), (0, 2), (1, 0), (0, 1)] ++ cells 1 [(0, 2), (1, 0), (0, 0), (0, 1), (1, 2)]
    let ms := [toTarget 0 none, toTarget 1 (some (.ofMips 0 2 0 1)), toTarget 1 (some (.cell 0 1)),
      toTarget 1 (some (.ofMips 0 2 2 1))]
    mergeBarriers (fun n => .ok (size n)) bs.reverse = .ok ms ∧ mergeBarriers (fun n => .ok (size n)) ms = .ok ms ∧
      (∀ key, (ofGroup key ms).Pairwise Barrier.Unjoinable) ∧
      ofGroup (toTarget 0 none).groupKey ms = [toTarget 0 none] := by
  intro size cells bs ms
  have hcell : ∀ n cs, (∀ x ∈ cs, x.1 < 2 ∧ x.2 < 3) → ∀ b ∈ cells n cs, ∃ mip layer,
      b.part = some (.cell mip layer) ∧ mip < (size b.resource).mips ∧ layer < (size b.resource).layers :=
    fun n cs hcs => List.forall_mem_map.2 fun x hx => ⟨x.1, x.2, rfl, hcs x hx⟩
  have hcells : Cellwise size bs :=
    { cell := List.forall_mem_append.2 ⟨hcell 0 _ (by decide), hcell 1 _ (by decide)⟩
      once := by decide
      native := by decide }
  obtain ⟨ms', hperm, hfixed, hunjoined, hfull⟩ := mergeBarriers_cells (fun _ => ⟨by decide, by decide⟩) hcells
  have hmerge : mergeBarriers (fun n => .ok (size n)) bs = .ok ms := by decide +kernel
  obtain rfl : ms = ms' := Except.ok.inj (hmerge.symm.trans (hperm bs (List.Perm.refl bs)))
  refine ⟨hperm _ bs.reverse_perm.symm, hfixed, hunjoined, hfull (toTarget 0 (some (.cell 1 2))) List.mem_cons_self ?_⟩
  decide

end FrameGraph
