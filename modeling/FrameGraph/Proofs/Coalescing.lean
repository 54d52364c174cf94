/-
Joining parts in order, and where it ends.

Joining goes over the parts once, so it may stop short: what it has made could be joined again. It does not if the parts
come in order and are told apart by their ends.

- `Separating`: how joining neighbours turns "one after the other" into "with a gap between".
- `Separating.neighbourRuns`: so no two runs of neighbours meet any more.
- `joinFirst_cases`: what joining a part to the first run it continues can do.
- `coalesce_of_unjoined`: parts of which no two can be joined are left alone.
- `Stable`: a group that merging leaves alone. `Stable.unjoinable`: no two of its barriers can be joined, whichever comes
  first. `mergeBarriers_stable`: barriers in such groups are left alone.
- `Runs`: the runs the parts of a group are joined to, what becomes of them, and which addresses they have.
- `stable_of_mergeBarriers`: merging leaves such groups, if the parts of a group have no address in common and no two of
  the runs can be joined.
-/
import FrameGraph.Proofs.MergingCoverage

namespace FrameGraph

open ResourceKind

/-! ## Joining neighbours -/

section Neighbours

variable {β ρ : Type} {meets : ρ → ρ → Bool} {grow : ρ → ρ → Except Fault ρ} {run : β × ρ} {parts runs : List (β × ρ)}

/-- what growing keeps holds of the runs if it holds of the parts -/
theorem forall_of_joinNeighbours {Q : ρ → Prop} (hQ : ∀ x y c, Q x → grow x y = .ok c → Q c)
    (h : joinNeighbours meets grow run parts = .ok runs) (hall : ∀ x ∈ run :: parts, Q x.2) : ∀ x ∈ runs, Q x.2 := by
  induction parts generalizing run runs with
  | nil =>
    cases h
    exact hall
  | cons next rest ih =>
    obtain ⟨hrun, hall⟩ := List.forall_mem_cons.1 hall
    unfold joinNeighbours at h
    split at h
    · obtain ⟨part, hgrow, h⟩ := bind_eq_ok.1 h
      exact ih h (List.forall_mem_cons.2 ⟨hQ _ _ _ hrun hgrow, (List.forall_mem_cons.1 hall).2⟩)
    · obtain ⟨later, hlater, h⟩ := bind_eq_ok.1 h
      cases h
      exact List.forall_mem_cons.2 ⟨hrun, ih hlater hall⟩

/-- parts that come one after the other either meet or have a gap between them, and growing goes on from the left -/
structure Separating (meets : ρ → ρ → Bool) (grow : ρ → ρ → Except Fault ρ) (before apart : ρ → ρ → Prop) : Prop where
  gap : ∀ x y, before x y → meets x y = false → apart x y
  trans : ∀ x y z, apart x y → before y z → apart x z
  grow_right : ∀ w x y c, apart w x → grow x y = .ok c → apart w c
  grow_left : ∀ x y z c, before x y → meets x y = true → grow x y = .ok c → before y z → before c z

variable {before apart : ρ → ρ → Prop}

theorem Separating.joinNeighbours (hs : Separating meets grow before apart)
    (h : joinNeighbours meets grow run parts = .ok runs) (hp : (run :: parts).Pairwise fun x y => before x.2 y.2) :
    runs.Pairwise fun x y => apart x.2 y.2 := by
  induction parts generalizing run runs with
  | nil =>
    cases h
    exact List.pairwise_singleton _ run
  | cons next rest ih =>
    obtain ⟨hrun, hp⟩ := List.pairwise_cons.1 hp
    obtain ⟨hnext, hrest⟩ := List.pairwise_cons.1 hp
    have hbefore : before run.2 next.2 := hrun next List.mem_cons_self
    unfold FrameGraph.joinNeighbours at h
    split at h
    · rename_i hmeets
      obtain ⟨part, hgrow, h⟩ := bind_eq_ok.1 h
      refine ih h (List.pairwise_cons.2 ⟨fun z hz => ?_, hrest⟩)
      exact hs.grow_left _ _ _ _ hbefore hmeets hgrow (hnext z hz)
    · rename_i hmeets
      obtain ⟨later, hlater, h⟩ := bind_eq_ok.1 h
      cases h
      -- the run is apart from the next part, so from all later ones, and so from what those grow to
      have hapart : apart run.2 next.2 := hs.gap _ _ hbefore (by simpa using hmeets)
      refine List.pairwise_cons.2 ⟨forall_of_joinNeighbours (hs.grow_right run.2) hlater ?_, ih hlater hp⟩
      exact List.forall_mem_cons.2 ⟨hapart, fun z hz => hs.trans _ _ _ hapart (hnext z hz)⟩

/-- **Runs of neighbours have gaps between them.** -/
theorem Separating.neighbourRuns (hs : Separating meets grow before apart)
    (h : neighbourRuns meets grow parts = .ok runs) (hp : parts.Pairwise fun x y => before x.2 y.2) :
    runs.Pairwise fun x y => apart x.2 y.2 := by
  cases parts with
  | nil =>
    cases h
    exact List.Pairwise.nil
  | cons first rest => exact hs.joinNeighbours h hp

theorem neighbourRuns_of_unmet (h : parts.Pairwise fun x y => meets x.2 y.2 = false) :
    neighbourRuns meets grow parts = .ok parts := by
  have hjoin : ∀ {run : β × ρ} {parts : List (β × ρ)}, ((run :: parts).Pairwise fun x y => meets x.2 y.2 = false) →
      joinNeighbours meets grow run parts = .ok (run :: parts) := by
    intro run parts
    induction parts generalizing run with
    | nil => exact fun _ => rfl
    | cons next rest ih =>
      intro h
      obtain ⟨hrun, hrest⟩ := List.pairwise_cons.1 h
      rw [joinNeighbours, hrun next List.mem_cons_self, if_neg Bool.false_ne_true, ih hrest]
      rfl
  cases parts with
  | nil => rfl
  | cons first rest => exact hjoin h

end Neighbours

/-! ## Joining to the first run -/

section FirstRun

variable {β ρ : Type} {meets : ρ → ρ → Bool} {grow : ρ → ρ → Except Fault ρ} {next : β × ρ} {runs out : List (β × ρ)}

/-- a part is joined to a run it continues, or comes to the end of the runs, none of which it continues -/
theorem joinFirst_cases (h : joinFirst meets grow next runs = .ok out) :
    (∃ front x back c, runs = front ++ x :: back ∧ meets x.2 next.2 = true ∧ grow x.2 next.2 = .ok c ∧
      out = front ++ (x.1, c) :: back) ∨ (∀ x ∈ runs, meets x.2 next.2 = false) ∧ out = runs ++ [next] := by
  induction runs generalizing out with
  | nil =>
    cases h
    exact Or.inr ⟨fun x hx => absurd hx List.not_mem_nil, rfl⟩
  | cons run runs ih =>
    unfold joinFirst at h
    split at h
    · rename_i hmeets
      obtain ⟨c, hgrow, h⟩ := bind_eq_ok.1 h
      cases h
      exact Or.inl ⟨[], run, runs, c, rfl, hmeets, hgrow, rfl⟩
    · rename_i hmeets
      obtain ⟨later, hlater, h⟩ := bind_eq_ok.1 h
      cases h
      rcases ih hlater with ⟨front, x, back, c, rfl, hx, hgrow, rfl⟩ | ⟨hnone, rfl⟩
      · exact Or.inl ⟨run :: front, x, back, c, rfl, hx, hgrow, rfl⟩
      · exact Or.inr ⟨List.forall_mem_cons.2 ⟨by simpa using hmeets, hnone⟩, rfl⟩

/-- what growing keeps holds of the runs if it holds of them before and of the part -/
theorem forall_of_joinFirst {Q : ρ → Prop} (hQ : ∀ x c, Q x → meets x next.2 = true → grow x next.2 = .ok c → Q c)
    (h : joinFirst meets grow next runs = .ok out) (hnext : Q next.2) (hruns : ∀ x ∈ runs, Q x.2) : ∀ x ∈ out, Q x.2 := by
  rcases joinFirst_cases h with ⟨front, x, back, c, rfl, hmeets, hgrow, rfl⟩ | ⟨-, rfl⟩
  · rw [List.forall_mem_append, List.forall_mem_cons] at hruns ⊢
    exact ⟨hruns.1, hQ _ _ hruns.2.1 hmeets hgrow, hruns.2.2⟩
  · exact List.forall_mem_append.2 ⟨hruns, List.forall_mem_singleton.2 hnext⟩

theorem joinFirst_of_unmet (h : ∀ x ∈ runs, meets x.2 next.2 = false) :
    joinFirst meets grow next runs = .ok (runs ++ [next]) := by
  induction runs with
  | nil => rfl
  | cons run runs ih =>
    obtain ⟨hrun, hruns⟩ := List.forall_mem_cons.1 h
    rw [joinFirst, hrun, if_neg Bool.false_ne_true, ih hruns]
    rfl

theorem foldlM_joinFirst_of_unmet {parts : List (β × ρ)}
    (h : (runs ++ parts).Pairwise fun x y => meets x.2 y.2 = false) :
    parts.foldlM (fun runs next => joinFirst meets grow next runs) runs = .ok (runs ++ parts) := by
  induction parts generalizing runs with
  | nil => rw [List.append_nil, List.foldlM_nil]; rfl
  | cons next rest ih =>
    have hnext : ∀ x ∈ runs, meets x.2 next.2 = false := fun x hx =>
      (List.pairwise_append.1 h).2.2 x hx next List.mem_cons_self
    rw [List.append_cons] at h ⊢
    rw [List.foldlM_cons, joinFirst_of_unmet hnext]
    exact ih h

end FirstRun

/-! ## Parts that cannot be joined -/

variable {k : ResourceKind} {β : Type}

/-- merging would join the second part to the first one -/
def ResourceKind.joins : (k : ResourceKind) → k.Part → k.Part → Bool
  | texture, p, q => p.meetsMips q || p.meetsLayers q
  | buffer, p, q => p.meets q

/-- **Parts of which no two can be joined are left alone.** -/
theorem coalesce_of_unjoined {parts : List (β × k.Part)} (h : parts.Pairwise fun x y => k.joins x.2 y.2 = false) :
    k.coalesce parts = .ok parts := by
  cases k with
  | texture =>
    have hmips : parts.Pairwise fun x y => Subresources.meetsMips x.2 y.2 = false :=
      h.imp fun {x y} hxy => (Bool.or_eq_false_iff.1 hxy).1
    have hlayers : (([] : List (β × Subresources)) ++ parts).Pairwise fun x y => Subresources.meetsLayers x.2 y.2 = false :=
      h.imp fun {x y} hxy => (Bool.or_eq_false_iff.1 hxy).2
    rw [coalesce, neighbourRuns_of_unmet hmips]
    exact foldlM_joinFirst_of_unmet hlayers
  | buffer => exact neighbourRuns_of_unmet h

/-- of runs without overlaps, one that covers the resource is the only one -/
theorem eq_singleton_of_covers {b : k.Bounds} {runs : List (β × k.Part)} (hin : ∀ x ∈ runs, k.Inside b x.2)
    (honce : ∀ i, runs.countP (fun x => k.holds b x.2 i) ≤ 1) {x : β × k.Part} (hx : x ∈ runs)
    (hc : k.covers b x.2 = true) : runs = [x] := by
  obtain ⟨front, back, rfl⟩ := List.append_of_mem hx
  let p : Nat → β × k.Part → Bool := fun i x => k.holds b x.2 i
  have hother : ∀ y, y ∈ front ∨ y ∈ back → False := by
    intro y hy
    have hyin : k.Inside b y.2 := hin y (by simpa using hy.imp_right Or.inr)
    obtain ⟨i, hi, hh⟩ := exists_holds hyin
    have hone : (front ++ x :: back).countP (p i) ≤ 1 := honce i
    rw [List.countP_append, List.countP_cons_of_pos (p := p i) (holds_of_covers hc hi)] at hone
    have hpos : 0 < front.countP (p i) + back.countP (p i) :=
      hy.elim (fun hy => Nat.add_pos_left (List.countP_pos_iff.2 ⟨y, hy, hh⟩) _)
        fun hy => Nat.add_pos_right _ (List.countP_pos_iff.2 ⟨y, hy, hh⟩)
    omega
  rw [List.eq_nil_iff_forall_not_mem.2 fun y hy => hother y (Or.inl hy),
    List.eq_nil_iff_forall_not_mem.2 fun y hy => hother y (Or.inr hy), List.nil_append]

/-! ## Groups that are left alone -/

theorem cons_le_cons_iff {x y : Nat} {l l' : List Nat} : x :: l ≤ y :: l' ↔ x < y ∨ x = y ∧ l ≤ l' := by
  rw [le_iff_lt_or_eq, List.cons_lt_cons_iff, List.cons.injEq, le_iff_lt_or_eq (a := l)]
  tauto

theorem texture_placeKey_le_iff {p q : Subresources} :
    texture.placeKey p ≤ texture.placeKey q ↔
      p.baseLayer < q.baseLayer ∨ p.baseLayer = q.baseLayer ∧ p.baseMip ≤ q.baseMip := by
  rw [ResourceKind.placeKey, ResourceKind.placeKey, cons_le_cons_iff, cons_le_cons_iff, and_iff_left le_rfl,
    ← le_iff_lt_or_eq]

theorem buffer_placeKey_le_iff {p q : ByteSpan} : buffer.placeKey p ≤ buffer.placeKey q ↔ p.offset ≤ q.offset := by
  rw [ResourceKind.placeKey, ResourceKind.placeKey, cons_le_cons_iff, and_iff_left le_rfl, ← le_iff_lt_or_eq]

/-- a part does not go on where an earlier one begins -/
theorem joins_eq_false_of_placeKey_le {b : k.Bounds} (hb : k.Worded b) {p q : k.Part} (hq : k.Inside b q)
    (h : k.placeKey p ≤ k.placeKey q) : k.joins q p = false := by
  cases k with
  | texture =>
    have hplace := texture_placeKey_le_iff.1 h
    obtain ⟨hm, hl⟩ := hb
    obtain ⟨⟨h1, h2⟩, h3, h4⟩ := hq
    have hmip : q.mipEnd = q.baseMip + q.mipCount := saturatingAdd_eq (h2.trans hm)
    have hlayer : q.layerEnd = q.baseLayer + q.layerCount := saturatingAdd_eq (h4.trans hl)
    simp only [joins, Subresources.meetsMips, Subresources.meetsLayers, hmip, hlayer, ← Bool.not_eq_true, Bool.or_eq_true,
      Bool.and_eq_true, beq_iff_eq]
    omega
  | buffer =>
    have hplace := buffer_placeKey_le_iff.1 h
    obtain ⟨h1, h2⟩ := hq
    have hstop : q.stop = q.offset + q.size := saturatingAdd_eq (h2.trans hb)
    simp only [joins, ByteSpan.meets, hstop, ← Bool.not_eq_true, beq_iff_eq]
    omega

variable {size : Nat → k.Bounds} {n : Nat} {group ms : List (Barrier k)} {runs : List (Barrier k × k.Part)}

/-- one barrier of the whole resource; or parts in order none of which is all of the resource and no two of which can be
joined -/
def Stable (size : Nat → k.Bounds) (group : List (Barrier k)) : Prop :=
  (∃ w, group = [w] ∧ w.part = none) ∨
    (∀ c ∈ group, ∃ p, c.part = some p ∧ k.covers (size c.resource) p = false) ∧
      group.Pairwise fun a c => a.placeKey ≤ c.placeKey ∧
        ∀ p q, a.part = some p → c.part = some q → k.joins p q = false

/-- the barriers have parts, and neither of these can be joined to the other -/
def Barrier.Unjoinable (a c : Barrier k) : Prop :=
  ∃ p q, a.part = some p ∧ c.part = some q ∧ k.joins p q = false ∧ k.joins q p = false

/-- no two barriers of a group that is left alone can be joined, whichever comes first -/
theorem Stable.unjoinable (h : Stable size group) (hsize : ∀ n, k.Worded (size n)) (hfit : ∀ c ∈ group, c.Fitting size) :
    group.Pairwise Barrier.Unjoinable := by
  rcases h with ⟨w, rfl, -⟩ | ⟨hparts, hpairs⟩
  · exact List.pairwise_singleton _ w
  · refine hpairs.imp_of_mem fun {a c} ha hc ⟨hplace, hjoins⟩ => ?_
    obtain ⟨p, hp, -⟩ := hparts a ha
    obtain ⟨q, hq, -⟩ := hparts c hc
    rw [Barrier.placeKey_some hp, Barrier.placeKey_some hq, cons_le_cons_iff] at hplace
    have hle : k.placeKey p ≤ k.placeKey q := (hplace.resolve_left (lt_irrefl 1)).2
    exact ⟨p, q, hp, hq, hjoins p q hp hq, joins_eq_false_of_placeKey_le (hsize _) (hfit c hc q hq) hle⟩

theorem Stable.placed (h : Stable size group) : group.Pairwise fun a c => a.placeKey ≤ c.placeKey := by
  rcases h with ⟨w, rfl, -⟩ | ⟨-, h⟩
  · exact List.pairwise_singleton _ w
  · exact h.imp And.left

/-- each barrier is given back with the part it has -/
theorem map_partsOf (h : ∀ c ∈ group, ∃ p, c.part = some p ∧ k.covers (size n) p = false) :
    (partsOf group).map (fun x => x.1.spanning (size n) x.2) = group := by
  induction group with
  | nil => rfl
  | cons c group ih =>
    obtain ⟨⟨p, hp, hc⟩, hgroup⟩ := List.forall_mem_cons.1 h
    have hsame : c.spanning (size n) p = c := by
      rw [Barrier.spanning, hc, if_neg Bool.false_ne_true, ← hp]
    have hcons : partsOf (c :: group) = (c, p) :: partsOf group := by
      rw [partsOf, List.filterMap_cons_some (b := (c, p)) (by rw [hp]; rfl)]
      rfl
    rw [hcons, List.map_cons, hsame, ih hgroup]

theorem Stable.mergeGroup (h : Stable size group) (hone : ∀ a ∈ group, ∀ c ∈ group, a.groupKey = c.groupKey) :
    mergeGroup (fun n => .ok (size n)) group = .ok group := by
  rcases h with ⟨w, rfl, hw⟩ | ⟨hparts, hpairs⟩
  · obtain ⟨w', hw', -, hmerge⟩ := mergeGroup_whole (fun n => .ok (size n)) ⟨w, List.mem_singleton_self w, hw⟩
    rw [hmerge, List.mem_singleton.1 hw']
  · cases group with
    | nil => exact mergeGroup_nil
    | cons first rest =>
      have hresource : ∀ c ∈ first :: rest, c.resource = first.resource := fun c hc =>
        (groupKey_eq_iff.1 (hone c hc first List.mem_cons_self)).1
      have hcoalesce : k.coalesce (partsOf (first :: rest)) = .ok (partsOf (first :: rest)) :=
        coalesce_of_unjoined (pairwise_partsOf hpairs fun a _ c _ hac => hac.2)
      have hsome : ∀ c ∈ first :: rest, ∃ p, c.part = some p := fun c hc => (hparts c hc).imp fun _ h => h.1
      rw [mergeGroup_of_coalesce hresource hsome hcoalesce, map_partsOf fun c hc => ?_]
      obtain ⟨p, hp, hc'⟩ := hparts c hc
      exact ⟨p, hp, hresource c hc ▸ hc'⟩

/-- **Runs without overlaps, in order, of which no two can be joined, become barriers that are left alone.** -/
theorem stable_of_runs (hone : ∀ x ∈ runs, x.1.resource = n) (hin : ∀ x ∈ runs, k.Inside (size n) x.2)
    (honce : ∀ i, runs.countP (fun x => k.holds (size n) x.2 i) ≤ 1)
    (hpairs : runs.Pairwise fun x y => k.placeKey x.2 ≤ k.placeKey y.2 ∧ k.joins x.2 y.2 = false) :
    Stable size (runs.map fun x => x.1.spanning (size n) x.2) := by
  by_cases hex : ∃ x ∈ runs, k.covers (size n) x.2 = true
  · obtain ⟨x, hx, hc⟩ := hex
    rw [eq_singleton_of_covers hin honce hx hc]
    exact Or.inl ⟨_, rfl, if_pos hc⟩
  · have hpart : ∀ x ∈ runs, (x.1.spanning (size n) x.2).part = some x.2 := fun x hx => if_neg fun hc => hex ⟨x, hx, hc⟩
    refine Or.inr ⟨fun m hm => ?_,
      List.pairwise_map.2 (hpairs.imp_of_mem fun {x y} hx hy hxy => ⟨?_, fun p q hp hq => ?_⟩)⟩
    · obtain ⟨x, hx, rfl⟩ := List.mem_map.1 hm
      refine ⟨x.2, hpart x hx, ?_⟩
      rw [Barrier.spanning, hone x hx]
      exact Bool.eq_false_iff.2 fun hc => hex ⟨x, hx, hc⟩
    · rw [Barrier.placeKey_some (hpart x hx), Barrier.placeKey_some (hpart y hy)]
      exact cons_le_cons_iff.2 (Or.inr ⟨rfl, hxy.1⟩)
    · rw [hpart x hx] at hp
      rw [hpart y hy] at hq
      exact Option.some.inj hp ▸ Option.some.inj hq ▸ hxy.2

/-- **Barriers in groups that are left alone are left alone.** -/
theorem mergeBarriers_stable (hgrouped : Grouped ms) (h : ∀ key, Stable size (ofGroup key ms)) :
    mergeBarriers (fun n => .ok (size n)) ms = .ok ms :=
  mergeBarriers_fixed hgrouped (fun key => (h key).placed) fun key =>
    (h key).mergeGroup fun _ ha _ hc => groupKey_eq_of_mem_ofGroup ha hc

/-! ## Merging to groups that are left alone -/

variable {bs : List (Barrier k)} {key : List Nat}

/-- a group is sorted by place; what holds of any two of its barriers holds of the sorted ones -/
theorem pairwise_sorted_group {R : Barrier k → Barrier k → Prop} (hsymm : ∀ {a c}, R a c → R c a)
    (h : (ofGroup key bs).Pairwise R) :
    (ofGroup key (sortOn Barrier.sortKey bs)).Pairwise fun a c => a.placeKey ≤ c.placeKey ∧ R a c := by
  have hplaced : (ofGroup key (sortOn Barrier.sortKey bs)).Pairwise fun a c => a.sortKey ≤ c.sortKey :=
    (pairwise_sortOn Barrier.sortKey bs).sublist List.filter_sublist
  have hsorted := ((ofGroup_sorted_perm key bs).pairwise_iff hsymm).2 h
  refine List.Pairwise.and (hplaced.imp_of_mem fun {a c} ha hc hac => ?_) hsorted
  exact Barrier.placeKey_le_of_sortKey_le (groupKey_eq_of_mem_ofGroup ha hc) hac

/-- the parts of the barriers, if they have parts, have no address in common -/
def Barrier.PartsApart (size : Nat → k.Bounds) (a c : Barrier k) : Prop :=
  ∀ p q, a.part = some p → c.part = some q →
    ∀ i, ¬ (k.holds (size a.resource) p i = true ∧ k.holds (size c.resource) q i = true)

theorem Barrier.PartsApart.symm {a c : Barrier k} (h : a.PartsApart size c) : c.PartsApart size a :=
  fun p q hp hq i hi => h q p hq hp i hi.symm

/-- the runs the parts of a group are joined to, and what becomes of them -/
structure Runs (size : Nat → k.Bounds) (bs ms : List (Barrier k)) (c : Barrier k) (runs : List (Barrier k × k.Part)) :
    Prop where
  joined : k.coalesce (partsOf (ofGroup c.groupKey (sortOn Barrier.sortKey bs))) = .ok runs
  coalesced : Coalesced (size c.resource) (partsOf (ofGroup c.groupKey (sortOn Barrier.sortKey bs))) runs
  left : ofGroup c.groupKey ms = runs.map fun x => x.1.spanning (size c.resource) x.2

/-- what a group of parts is merged to -/
theorem exists_runs (hsize : ∀ n, k.Worded (size n)) (hfit : ∀ b ∈ bs, b.Fitting size)
    (h : mergeBarriers (fun n => .ok (size n)) bs = .ok ms) {c : Barrier k}
    (hparts : ∀ a ∈ ofGroup c.groupKey bs, a.part ≠ none) : ∃ runs, Runs size bs ms c runs := by
  have hmem : ∀ a ∈ ofGroup c.groupKey (sortOn Barrier.sortKey bs), a ∈ ofGroup c.groupKey bs := fun a ha =>
    (ofGroup_sorted_perm c.groupKey bs).mem_iff.1 ha
  have hresource : ∀ a ∈ ofGroup c.groupKey (sortOn Barrier.sortKey bs), a.resource = c.resource := fun _ ha =>
    resource_eq_of_mem ha
  obtain ⟨runs, hjoined, hcoalesced, hmerge⟩ := mergeGroup_runs (hsize c.resource) hresource fun a ha => by
    obtain ⟨p, hp⟩ := Option.ne_none_iff_exists'.1 (hparts a (hmem a ha))
    exact ⟨p, hp, hresource a ha ▸ hfit a (mem_ofGroup.1 (hmem a ha)).1 p hp⟩
  exact ⟨runs, hjoined, hcoalesced, Except.ok.inj (((of_mergeBarriers h).2 c.groupKey).symm.trans hmerge)⟩

namespace Runs

variable {c : Barrier k}

theorem mem (h : Runs size bs ms c runs) {x : Barrier k × k.Part} (hx : x ∈ runs) : x.1 ∈ ofGroup c.groupKey bs :=
  (ofGroup_sorted_perm c.groupKey bs).mem_iff.1 (mem_of_runs h.coalesced x hx)

theorem resource_eq (h : Runs size bs ms c runs) {x : Barrier k × k.Part} (hx : x ∈ runs) : x.1.resource = c.resource :=
  resource_eq_of_mem (h.mem hx)

/-- the runs have the addresses the parts of the group have -/
theorem exists_holds_iff (h : Runs size bs ms c runs) (i : Nat) :
    (∃ x ∈ runs, k.holds (size c.resource) x.2 i = true) ↔
      ∃ a ∈ ofGroup c.groupKey bs, ∃ p, a.part = some p ∧ k.holds (size c.resource) p i = true := by
  have hpos : (∃ x ∈ runs, k.holds (size c.resource) x.2 i = true) ↔
      ∃ x ∈ partsOf (ofGroup c.groupKey (sortOn Barrier.sortKey bs)), k.holds (size c.resource) x.2 i = true := by
    rw [← List.countP_pos_iff (p := fun x : Barrier k × k.Part => k.holds (size c.resource) x.2 i), h.coalesced.count i,
      List.countP_pos_iff]
  rw [hpos]
  constructor
  · rintro ⟨x, hx, hi⟩
    obtain ⟨hx, hp⟩ := mem_partsOf.1 hx
    exact ⟨x.1, (ofGroup_sorted_perm c.groupKey bs).mem_iff.1 hx, x.2, hp, hi⟩
  · rintro ⟨a, ha, p, hp, hi⟩
    exact ⟨(a, p), mem_partsOf.2 ⟨(ofGroup_sorted_perm c.groupKey bs).mem_iff.2 ha, hp⟩, hi⟩

/-- parts that have no address in common are joined to runs that have none -/
theorem once (h : Runs size bs ms c runs) (hd : (ofGroup c.groupKey bs).Pairwise (Barrier.PartsApart size)) (i : Nat) :
    runs.countP (fun x => k.holds (size c.resource) x.2 i) ≤ 1 := by
  rw [h.coalesced.count]
  have hsorted := pairwise_sorted_group Barrier.PartsApart.symm hd
  let S : k.Part → k.Part → Prop := fun p q =>
    ¬ (k.holds (size c.resource) p i = true ∧ k.holds (size c.resource) q i = true)
  refine countP_le_one (pairwise_partsOf (S := S) hsorted fun a ha a' ha' hac p q hp hq => ?_)
  have hn := hac.2 p q hp hq i
  rwa [resource_eq_of_mem ha, resource_eq_of_mem ha'] at hn

end Runs

/-- **Merging leaves groups that are left alone**, if the parts of a group have no address in common and no two of the
runs they are joined to, which are in order, can be joined. -/
theorem stable_of_mergeBarriers (hsize : ∀ n, k.Worded (size n)) (hfit : ∀ b ∈ bs, b.Fitting size)
    (hd : ∀ key, (ofGroup key bs).Pairwise (Barrier.PartsApart size))
    (hruns : ∀ c ∈ bs, ∀ runs, (∀ a ∈ ofGroup c.groupKey bs, a.part ≠ none) → Runs size bs ms c runs →
      runs.Pairwise fun x y => k.placeKey x.2 ≤ k.placeKey y.2 ∧ k.joins x.2 y.2 = false)
    (h : mergeBarriers (fun n => .ok (size n)) bs = .ok ms) (key : List Nat) : Stable size (ofGroup key ms) := by
  obtain ⟨ms', hms', hcovering⟩ := exists_covering hsize hfit
  obtain rfl : ms = ms' := Except.ok.inj (h.symm.trans hms')
  by_cases hw : ∃ a ∈ ofGroup key bs, a.part = none
  · obtain ⟨w, -, hpart, hleft⟩ := hcovering.whole key hw
    exact Or.inl ⟨w, hleft, hpart⟩
  · by_cases hex : ∃ c ∈ bs, c.groupKey = key
    · obtain ⟨c, hc, rfl⟩ := hex
      have hparts : ∀ a ∈ ofGroup c.groupKey bs, a.part ≠ none := fun a ha hnone => hw ⟨a, ha, hnone⟩
      obtain ⟨runs, hr⟩ := exists_runs hsize hfit h hparts
      rw [hr.left]
      exact stable_of_runs (fun x hx => hr.resource_eq hx) hr.coalesced.inside (hr.once (hd _)) (hruns c hc runs hparts hr)
    · have hnil : ofGroup key ms = [] := by
        refine ofGroup_eq_nil fun m hm hkey => hex ?_
        obtain ⟨c, hc, p, rfl⟩ := hcovering.origin m hm
        exact ⟨c, hc, hkey⟩
      rw [hnil]
      exact Or.inr ⟨fun c hc => absurd hc List.not_mem_nil, List.Pairwise.nil⟩

/-- **Merging is canonical** if, besides, barriers of one place in one group are equal: it does not depend on the order
of the barriers, merging what it gives changes nothing, and no two barriers it leaves of a group can be joined. -/
theorem mergeBarriers_settles (hsize : ∀ n, k.Worded (size n)) (hfit : ∀ b ∈ bs, b.Fitting size)
    (hkey : ∀ a ∈ bs, ∀ c ∈ bs, a.sortKey = c.sortKey → a = c)
    (hd : ∀ key, (ofGroup key bs).Pairwise (Barrier.PartsApart size))
    (hruns : ∀ c ∈ bs, ∀ ms runs, Runs size bs ms c runs →
      runs.Pairwise fun x y => k.placeKey x.2 ≤ k.placeKey y.2 ∧ k.joins x.2 y.2 = false) :
    ∃ ms, mergeBarriers (fun n => .ok (size n)) bs = .ok ms ∧ Covering size bs ms ∧ Grouped ms ∧
      (∀ cs, bs.Perm cs → mergeBarriers (fun n => .ok (size n)) cs = .ok ms) ∧
      mergeBarriers (fun n => .ok (size n)) ms = .ok ms ∧ ∀ key, (ofGroup key ms).Pairwise Barrier.Unjoinable := by
  obtain ⟨ms, hms, hcovering⟩ := exists_covering hsize hfit
  have hgrouped : Grouped ms := (of_mergeBarriers hms).1
  have hstable : ∀ key, Stable size (ofGroup key ms) :=
    stable_of_mergeBarriers hsize hfit hd (fun c hc runs _ hr => hruns c hc ms runs hr) hms
  refine ⟨ms, hms, hcovering, hgrouped, fun cs hcs => ?_, mergeBarriers_stable hgrouped hstable, fun key => ?_⟩
  · rw [← mergeBarriers_perm hcs hkey, hms]
  · exact (hstable key).unjoinable hsize fun c hc => hcovering.fits c (mem_ofGroup.1 hc).1

end FrameGraph
