/-
Merging happens group by group.

The barriers with one group key are a group. Sorting puts a group in one place and in order of the parts, and each group
is merged on its own. So a merged list is known by its groups (`eq_of_ofGroup`), and everything about merging is a fact
about one group.

- `groupKey_eq_iff`: a group key stands for a resource, two states and a tag.
- `mergeBarriers_eq_ok_iff`: what merging gives, group by group, in ascending order of the keys.
- `exists_mergeBarriers`: merging goes well if it does for each group.
- `mergeBarriers_perm`: the order of the barriers does not matter if those with one sort key are equal.
- `mergeBarriers_fixed`: a list in order whose groups are left alone is left alone.
- `mergeGroup_runs`: a group without a whole-resource barrier is merged to the runs its parts are joined to.
-/
import FrameGraph.Proofs.Merging

namespace FrameGraph

open ResourceKind

variable {k : ResourceKind}

/-! ## Sorting permuted lists -/

/-- sorting does not depend on the order of a list whose elements with one key are equal -/
theorem sortOn_eq_of_perm {α : Type} {key : α → List Nat} {as bs : List α} (h : as.Perm bs)
    (hkey : ∀ a ∈ as, ∀ b ∈ as, key a = key b → a = b) : sortOn key as = sortOn key bs := by
  have hperm : (sortOn key as).Perm (sortOn key bs) := (sortOn_perm key as).trans (h.trans (sortOn_perm key bs).symm)
  refine List.Perm.eq_of_pairwise (fun a b ha hb hab hba => ?_) (pairwise_sortOn key as) (pairwise_sortOn key bs) hperm
  exact hkey a (mem_sortOn.1 ha) b (h.mem_iff.2 (mem_sortOn.1 hb)) (le_antisymm hab hba)

/-! ## Keys -/

theorem Aspect.rank_injective {a b : Aspect} (h : a.rank = b.rank) : a = b := by
  revert h
  cases a <;> cases b <;> decide

theorem tagKey_injective {t t' : k.Tag} (h : k.tagKey t = k.tagKey t') : t = t' := by
  cases k with
  | texture => exact Aspect.rank_injective (List.head_eq_of_cons_eq h)
  | buffer => rfl

/-- barriers of one group are of one resource, have the same states and the same tag -/
theorem groupKey_eq_iff {a c : Barrier k} :
    a.groupKey = c.groupKey ↔ a.resource = c.resource ∧ a.before = c.before ∧ a.after = c.after ∧ a.tag = c.tag := by
  constructor
  · intro h
    obtain ⟨hresource, hbefore, hafter⟩ := eq_of_groupKey_eq h
    simp only [Barrier.groupKey, List.cons.injEq] at h
    exact ⟨hresource, hbefore, hafter, tagKey_injective h.2.2.2⟩
  · rintro ⟨h1, h2, h3, h4⟩
    rw [Barrier.groupKey, Barrier.groupKey, h1, h2, h3, h4]

theorem length_groupKey_eq (a c : Barrier k) : a.groupKey.length = c.groupKey.length := by
  cases k <;> rfl

/-- what comes after two lists of one length does not matter if they differ -/
theorem append_lt_append_of_lt {l l' : List Nat} (hlength : l.length = l'.length) (h : l < l') (m m' : List Nat) :
    l ++ m < l' ++ m' := by
  induction l generalizing l' with
  | nil =>
    cases l' with
    | nil => exact absurd h (lt_irrefl _)
    | cons => cases hlength
  | cons x l ih =>
    cases l' with
    | nil => cases hlength
    | cons y l' =>
      rcases List.cons_lt_cons_iff.1 h with hxy | ⟨rfl, hlt⟩
      · exact List.cons_lt_cons_iff.2 (Or.inl hxy)
      · exact List.cons_lt_cons_iff.2 (Or.inr ⟨rfl, ih (Nat.succ.inj hlength) hlt⟩)

namespace Barrier

/-- where a barrier stands within its group -/
def placeKey (b : Barrier k) : List Nat :=
  match b.part with
  | none => [0]
  | some p => 1 :: k.placeKey p

theorem sortKey_eq (b : Barrier k) : b.sortKey = b.groupKey ++ b.placeKey := rfl

theorem placeKey_some {b : Barrier k} {p : k.Part} (h : b.part = some p) : b.placeKey = 1 :: k.placeKey p := by
  rw [placeKey, h]

theorem sortKey_lt_of_groupKey_lt {a c : Barrier k} (h : a.groupKey < c.groupKey) : a.sortKey < c.sortKey :=
  append_lt_append_of_lt (length_groupKey_eq a c) h _ _

theorem groupKey_le_of_sortKey_le {a c : Barrier k} (h : a.sortKey ≤ c.sortKey) : a.groupKey ≤ c.groupKey :=
  le_of_not_gt fun hlt => absurd (sortKey_lt_of_groupKey_lt hlt) (not_lt_of_ge h)

theorem placeKey_le_of_sortKey_le {a c : Barrier k} (hkey : a.groupKey = c.groupKey) (h : a.sortKey ≤ c.sortKey) :
    a.placeKey ≤ c.placeKey := by
  refine le_of_not_gt fun hlt => absurd h (not_le_of_gt ?_)
  rw [sortKey_eq, sortKey_eq, hkey]
  exact List.append_left_lt hlt

theorem sortKey_eq_iff {a c : Barrier k} : a.sortKey = c.sortKey ↔ a.groupKey = c.groupKey ∧ a.placeKey = c.placeKey := by
  rw [sortKey_eq, sortKey_eq]
  exact ⟨fun h => List.append_inj h (length_groupKey_eq a c), fun h => by rw [h.1, h.2]⟩

/-- barriers of one group that have one native object and one part are equal -/
theorem eq_of_groupKey {a c : Barrier k} (hkey : a.groupKey = c.groupKey) (hnative : a.native = c.native)
    (hpart : a.part = c.part) : a = c := by
  obtain ⟨h1, h2, h3, h4⟩ := groupKey_eq_iff.1 hkey
  cases a
  cases c
  cases h1
  cases h2
  cases h3
  cases h4
  cases hnative
  cases hpart
  rfl

theorem sortKey_le_of_placeKey_le {a c : Barrier k} (hkey : a.groupKey = c.groupKey) (h : a.placeKey ≤ c.placeKey) :
    a.sortKey ≤ c.sortKey := by
  rw [sortKey_eq, sortKey_eq, hkey]
  rcases h.lt_or_eq with hlt | heq
  · exact (List.append_left_lt hlt).le
  · rw [heq]

end Barrier

/-! ## Groups -/

/-- the barriers with a group key, in the order of the list -/
def ofGroup (key : List Nat) (bs : List (Barrier k)) : List (Barrier k) := bs.filter fun b => b.groupKey = key

variable {key : List Nat} {a b : Barrier k} {bs cs : List (Barrier k)}

theorem mem_ofGroup : b ∈ ofGroup key bs ↔ b ∈ bs ∧ b.groupKey = key := by
  rw [ofGroup, List.mem_filter, decide_eq_true_eq]

/-- what is in a group has one key, in whatever list -/
theorem groupKey_eq_of_mem_ofGroup (ha : a ∈ ofGroup key bs) (hb : b ∈ ofGroup key cs) : a.groupKey = b.groupKey :=
  (mem_ofGroup.1 ha).2.trans (mem_ofGroup.1 hb).2.symm

theorem resource_eq_of_mem_ofGroup (ha : a ∈ ofGroup key bs) (hb : b ∈ ofGroup key cs) : a.resource = b.resource :=
  (groupKey_eq_iff.1 (groupKey_eq_of_mem_ofGroup ha hb)).1

/-- what is in the group of a barrier is of its resource -/
theorem resource_eq_of_mem (ha : a ∈ ofGroup b.groupKey bs) : a.resource = b.resource :=
  (groupKey_eq_iff.1 (mem_ofGroup.1 ha).2).1

theorem ofGroup_append : ofGroup key (bs ++ cs) = ofGroup key bs ++ ofGroup key cs := List.filter_append ..

theorem ofGroup_eq_self (h : ∀ b ∈ bs, b.groupKey = key) : ofGroup key bs = bs :=
  List.filter_eq_self.2 fun b hb => decide_eq_true (h b hb)

theorem ofGroup_eq_nil (h : ∀ b ∈ bs, b.groupKey ≠ key) : ofGroup key bs = [] :=
  List.filter_eq_nil_iff.2 fun b hb => by simpa using h b hb

theorem ofGroup_perm (h : bs.Perm cs) (key : List Nat) : (ofGroup key bs).Perm (ofGroup key cs) := h.filter _

theorem ofGroup_sorted_perm (key : List Nat) (bs : List (Barrier k)) :
    (ofGroup key (sortOn Barrier.sortKey bs)).Perm (ofGroup key bs) :=
  ofGroup_perm (sortOn_perm _ _) key

/-- the keys of a list do not fall -/
def Grouped (bs : List (Barrier k)) : Prop := bs.Pairwise fun a c => a.groupKey ≤ c.groupKey

/-- **A list whose keys do not fall is known by its groups.** -/
theorem eq_of_ofGroup (hb : Grouped bs) (hc : Grouped cs) (h : ∀ key, ofGroup key bs = ofGroup key cs) : bs = cs :=
  eq_of_filter_key hb hc h

/-- a relation holds along a list if it does within each group and between any two groups -/
theorem pairwise_of_ofGroup {R : Barrier k → Barrier k → Prop} (hin : ∀ key, (ofGroup key bs).Pairwise R)
    (hout : ∀ a ∈ bs, ∀ c ∈ bs, a.groupKey ≠ c.groupKey → R a c) : bs.Pairwise R := by
  induction bs with
  | nil => exact List.Pairwise.nil
  | cons b bs ih =>
    refine List.pairwise_cons.2 ⟨fun c hc => ?_, ih (fun key => ?_) fun a ha c hc =>
      hout a (List.mem_cons_of_mem b ha) c (List.mem_cons_of_mem b hc)⟩
    · by_cases hkey : b.groupKey = c.groupKey
      · have hgroup := hin b.groupKey
        rw [ofGroup, List.filter_cons_of_pos (by simp)] at hgroup
        exact (List.pairwise_cons.1 hgroup).1 c (mem_ofGroup.2 ⟨hc, hkey.symm⟩)
      · exact hout b List.mem_cons_self c (List.mem_cons_of_mem b hc) hkey
    · exact (hin key).sublist ((List.sublist_cons_self b bs).filter _)

/-! ## Cutting a sorted list into groups -/

/-- cut where the key changes, a list whose keys do not fall gives lists of ascending keys -/
theorem pairwise_of_cuts {groups : List (List (Barrier k))} (hne : ∀ g ∈ groups, g ≠ [])
    (hone : ∀ g ∈ groups, ∀ a ∈ g, ∀ c ∈ g, a.groupKey = c.groupKey) (hsorted : Grouped groups.flatten)
    (hcut : groups.IsChain fun g h => ∃ hg hh, (g.getLast hg).groupKey ≠ (h.head hh).groupKey) :
    groups.Pairwise fun g h => ∀ a ∈ g, ∀ c ∈ h, a.groupKey < c.groupKey := by
  induction groups with
  | nil => exact List.Pairwise.nil
  | cons g groups ih =>
    obtain ⟨-, hne'⟩ := List.forall_mem_cons.1 hne
    obtain ⟨honeg, hone'⟩ := List.forall_mem_cons.1 hone
    rw [Grouped, List.flatten_cons, List.pairwise_append] at hsorted
    obtain ⟨-, hrest, hle⟩ := hsorted
    refine List.pairwise_cons.2 ⟨fun h hh a ha c hc => ?_, ih hne' hone' hrest hcut.tail⟩
    cases groups with
    | nil => cases hh
    | cons h0 groups =>
      obtain ⟨hg0, hh0, hlast⟩ := (List.isChain_cons_cons.1 hcut).1
      have hfirst : a.groupKey < (h0.head hh0).groupKey := by
        rw [honeg a ha _ (List.getLast_mem hg0)]
        exact lt_of_le_of_ne (hle _ (List.getLast_mem hg0) _ (List.mem_append_left _ (List.head_mem hh0))) hlast
      -- the keys of the later lists are not below that of the first one
      refine hfirst.trans_le ?_
      rcases List.mem_cons.1 hh with rfl | hh
      · exact ((List.forall_mem_cons.1 hone').1 _ (List.head_mem hh0) c hc).le
      · have hflat := (List.pairwise_append.1 (List.flatten_cons ▸ hrest)).2.2
        exact hflat _ (List.head_mem hh0) c (List.mem_flatten.2 ⟨h, hh, hc⟩)

theorem grouped_sorted (bs : List (Barrier k)) : Grouped (sortOn Barrier.sortKey bs) :=
  (pairwise_sortOn Barrier.sortKey bs).imp Barrier.groupKey_le_of_sortKey_le

theorem flatten_groups (bs : List (Barrier k)) : (barrierGroups bs).flatten = sortOn Barrier.sortKey bs :=
  List.flatten_splitBy ..

/-- **The groups of a list come in ascending order of their keys.** -/
theorem pairwise_barrierGroups (bs : List (Barrier k)) :
    (barrierGroups bs).Pairwise fun g h => ∀ a ∈ g, ∀ c ∈ h, a.groupKey < c.groupKey := by
  refine pairwise_of_cuts (fun g hg => List.ne_nil_of_mem_splitBy hg) (fun g hg a ha c hc => groupKey_eq_of_mem hg ha hc)
    (flatten_groups bs ▸ grouped_sorted bs) ?_
  refine (List.isChain_getLast_head_splitBy (fun a c : Barrier k => a.groupKey == c.groupKey) _).imp ?_
  rintro g h ⟨hg, hh, hne⟩
  exact ⟨hg, hh, by simpa using hne⟩

/-- a list among lists of ascending keys holds all there is of its group -/
theorem ofGroup_flatten {groups : List (List (Barrier k))} {g : List (Barrier k)}
    (hasc : groups.Pairwise fun g h => ∀ a ∈ g, ∀ c ∈ h, a.groupKey < c.groupKey) (hg : g ∈ groups)
    (hkey : ∀ a ∈ g, a.groupKey = key) (hne : g ≠ []) : ofGroup key groups.flatten = g := by
  obtain ⟨front, back, rfl⟩ := List.append_of_mem hg
  obtain ⟨a, ha⟩ := List.exists_mem_of_ne_nil g hne
  obtain ⟨-, hback, hfront⟩ := List.pairwise_append.1 hasc
  rw [List.flatten_append, List.flatten_cons, ofGroup_append, ofGroup_append, ofGroup_eq_self hkey, ofGroup_eq_nil,
    ofGroup_eq_nil, List.nil_append, List.append_nil]
  · intro c hc
    obtain ⟨h, hh, hc⟩ := List.mem_flatten.1 hc
    rw [← hkey a ha]
    exact ((List.pairwise_cons.1 hback).1 h hh a ha c hc).ne'
  · intro c hc
    obtain ⟨h, hh, hc⟩ := List.mem_flatten.1 hc
    rw [← hkey a ha]
    exact (hfront h hh g List.mem_cons_self c hc a ha).ne

/-! ## Merging group by group -/

variable {bounds : Nat → Except Fault k.Bounds} {ms : List (Barrier k)}

theorem mergeGroup_nil : mergeGroup bounds ([] : List (Barrier k)) = .ok [] := by
  cases k <;> rfl

theorem mapM_eq_ok_iff {α β : Type} {f : α → Except Fault β} {as : List α} {bs : List β} :
    as.mapM f = .ok bs ↔ List.Forall₂ (fun a b => f a = .ok b) as bs := by
  induction as generalizing bs with
  | nil =>
    rw [List.mapM_nil, List.forall₂_nil_left_iff]
    exact ⟨fun h => (Except.ok.inj h).symm, fun h => h ▸ rfl⟩
  | cons a as ih =>
    rw [List.mapM_cons, bind_eq_ok]
    constructor
    · rintro ⟨b, hb, h⟩
      obtain ⟨later, hlater, h⟩ := bind_eq_ok.1 h
      cases h
      exact List.Forall₂.cons hb (ih.1 hlater)
    · intro h
      cases h with
      | cons hb hlater => exact ⟨_, hb, bind_eq_ok.2 ⟨_, ih.2 hlater, rfl⟩⟩

/-- what a group is merged to is of the same group -/
theorem groupKey_of_mergeGroup {g : List (Barrier k)} (h : mergeGroup bounds g = .ok ms) {m : Barrier k} (hm : m ∈ ms) :
    ∃ c ∈ g, m.groupKey = c.groupKey := by
  obtain ⟨c, hc, p, rfl⟩ := exists_of_mergeGroup h m hm
  exact ⟨c, hc, rfl⟩

theorem groupKey_of_merged {groups mss : List (List (Barrier k))}
    (h : List.Forall₂ (fun g ms => mergeGroup bounds g = .ok ms) groups mss) :
    ∀ m ∈ mss.flatten, ∃ c ∈ groups.flatten, m.groupKey = c.groupKey := by
  induction h with
  | nil =>
    intro m hm
    cases hm
  | @cons g ms groups mss hgroup _ ih =>
    intro m hm
    rcases List.mem_append.1 hm with hm | hm
    · obtain ⟨c, hc, hkey⟩ := groupKey_of_mergeGroup hgroup hm
      exact ⟨c, List.mem_append_left _ hc, hkey⟩
    · obtain ⟨c, hc, hkey⟩ := ih m hm
      exact ⟨c, List.mem_append_right _ hc, hkey⟩

/-- merging lists of ascending keys one by one merges each group, and keeps the order of the keys -/
theorem merged_groups {groups mss : List (List (Barrier k))}
    (hasc : groups.Pairwise fun g h => ∀ a ∈ g, ∀ c ∈ h, a.groupKey < c.groupKey)
    (hone : ∀ g ∈ groups, ∀ a ∈ g, ∀ c ∈ g, a.groupKey = c.groupKey)
    (h : List.Forall₂ (fun g ms => mergeGroup bounds g = .ok ms) groups mss) :
    Grouped mss.flatten ∧ ∀ key, mergeGroup bounds (ofGroup key groups.flatten) = .ok (ofGroup key mss.flatten) := by
  induction h with
  | nil => exact ⟨List.Pairwise.nil, fun _ => mergeGroup_nil⟩
  | @cons g ms groups mss hgroup hrest ih =>
    obtain ⟨hlt, hasc⟩ := List.pairwise_cons.1 hasc
    obtain ⟨honeg, hone⟩ := List.forall_mem_cons.1 hone
    obtain ⟨hgrouped, hmerge⟩ := ih hasc hone
    have hbelow : ∀ a ∈ g, ∀ c ∈ groups.flatten, a.groupKey < c.groupKey := fun a ha c hc => by
      obtain ⟨h, hh, hc⟩ := List.mem_flatten.1 hc
      exact hlt h hh a ha c hc
    refine ⟨?_, fun key => ?_⟩
    · rw [Grouped, List.flatten_cons, List.pairwise_append]
      refine ⟨List.pairwise_of_forall_mem_list fun m hm m' hm' => ?_, hgrouped, fun m hm m' hm' => ?_⟩
      · obtain ⟨c, hc, hkey⟩ := groupKey_of_mergeGroup hgroup hm
        obtain ⟨c', hc', hkey'⟩ := groupKey_of_mergeGroup hgroup hm'
        rw [hkey, hkey', honeg c hc c' hc']
      · obtain ⟨c, hc, hkey⟩ := groupKey_of_mergeGroup hgroup hm
        obtain ⟨c', hc', hkey'⟩ := groupKey_of_merged hrest m' hm'
        rw [hkey, hkey']
        exact (hbelow c hc c' hc').le
    · rw [List.flatten_cons, List.flatten_cons, ofGroup_append, ofGroup_append]
      by_cases hex : ∃ a ∈ g, a.groupKey = key
      · -- the group is the first list, and nothing later belongs to it
        obtain ⟨a, ha, rfl⟩ := hex
        have hms : ofGroup a.groupKey ms = ms := ofGroup_eq_self fun m hm => by
          obtain ⟨c, hc, hkey⟩ := groupKey_of_mergeGroup hgroup hm
          rw [hkey, honeg c hc a ha]
        have hnone : ofGroup a.groupKey mss.flatten = [] := ofGroup_eq_nil fun m hm => by
          obtain ⟨c, hc, hkey⟩ := groupKey_of_merged hrest m hm
          rw [hkey]
          exact (hbelow a ha c hc).ne'
        rw [ofGroup_eq_self fun c hc => honeg c hc a ha, ofGroup_eq_nil fun c hc => (hbelow a ha c hc).ne', hms, hnone,
          List.append_nil, List.append_nil, hgroup]
      · have hno : ∀ a ∈ g, a.groupKey ≠ key := fun a ha e => hex ⟨a, ha, e⟩
        have hms : ofGroup key ms = [] := ofGroup_eq_nil fun m hm => by
          obtain ⟨c, hc, hkey⟩ := groupKey_of_mergeGroup hgroup hm
          rw [hkey]
          exact hno c hc
        rw [ofGroup_eq_nil hno, hms, List.nil_append, List.nil_append, hmerge]

/-- merging merges each group, and lists the results in ascending order of the keys -/
theorem of_mergeBarriers (h : mergeBarriers bounds bs = .ok ms) :
    Grouped ms ∧ ∀ key, mergeGroup bounds (ofGroup key (sortOn Barrier.sortKey bs)) = .ok (ofGroup key ms) := by
  obtain ⟨mss, hmss, h⟩ := bind_eq_ok.1 h
  cases h
  rw [← flatten_groups]
  exact merged_groups (pairwise_barrierGroups bs) (fun g hg a ha c hc => groupKey_eq_of_mem hg ha hc)
    (mapM_eq_ok_iff.1 hmss)

/-- **Merging goes well if it does for each group.** -/
theorem exists_mergeBarriers
    (h : ∀ key, ∃ ms, mergeGroup bounds (ofGroup key (sortOn Barrier.sortKey bs)) = .ok ms) :
    ∃ ms, mergeBarriers bounds bs = .ok ms := by
  have hgroups : ∀ g ∈ barrierGroups bs, ∃ ms, mergeGroup bounds g = .ok ms := by
    intro g hg
    have hne : g ≠ [] := List.ne_nil_of_mem_splitBy hg
    obtain ⟨a, ha⟩ := List.exists_mem_of_ne_nil g hne
    have hall := ofGroup_flatten (pairwise_barrierGroups bs) hg (fun c hc => groupKey_eq_of_mem hg hc ha) hne
    rw [flatten_groups] at hall
    obtain ⟨ms, hms⟩ := h a.groupKey
    exact ⟨ms, hall ▸ hms⟩
  obtain ⟨mss, hmss⟩ : ∃ mss, List.Forall₂ (fun g ms => mergeGroup bounds g = .ok ms) (barrierGroups bs) mss := by
    generalize barrierGroups bs = groups at hgroups
    induction groups with
    | nil => exact ⟨[], List.Forall₂.nil⟩
    | cons g groups ih =>
      obtain ⟨⟨ms, hms⟩, hgroups⟩ := List.forall_mem_cons.1 hgroups
      obtain ⟨mss, hmss⟩ := ih hgroups
      exact ⟨ms :: mss, List.Forall₂.cons hms hmss⟩
  exact ⟨mss.flatten, bind_eq_ok.2 ⟨mss, mapM_eq_ok_iff.2 hmss, rfl⟩⟩

/-- **What merging gives, group by group.** -/
theorem mergeBarriers_eq_ok_iff :
    mergeBarriers bounds bs = .ok ms ↔
      Grouped ms ∧ ∀ key, mergeGroup bounds (ofGroup key (sortOn Barrier.sortKey bs)) = .ok (ofGroup key ms) := by
  refine ⟨of_mergeBarriers, fun ⟨hgrouped, hgroups⟩ => ?_⟩
  obtain ⟨ms', hms'⟩ := exists_mergeBarriers fun key => ⟨_, hgroups key⟩
  obtain ⟨hgrouped', hgroups'⟩ := of_mergeBarriers hms'
  rw [hms', eq_of_ofGroup hgrouped hgrouped' fun key => ?_]
  exact Except.ok.inj ((hgroups key).symm.trans (hgroups' key))

/-- **Merging does not depend on the order of barriers** of which those with one sort key are equal. -/
theorem mergeBarriers_perm (h : bs.Perm cs) (hkey : ∀ a ∈ bs, ∀ c ∈ bs, a.sortKey = c.sortKey → a = c) :
    mergeBarriers bounds bs = mergeBarriers bounds cs := by
  rw [mergeBarriers, mergeBarriers, barrierGroups, barrierGroups, sortOn_eq_of_perm h hkey]

/-- **Merging leaves a list in order alone if it leaves each group alone.** -/
theorem mergeBarriers_fixed (hgrouped : Grouped ms)
    (hplace : ∀ key, (ofGroup key ms).Pairwise fun a c => a.placeKey ≤ c.placeKey)
    (hfixed : ∀ key, mergeGroup bounds (ofGroup key ms) = .ok (ofGroup key ms)) : mergeBarriers bounds ms = .ok ms := by
  have hsorted : sortOn Barrier.sortKey ms = ms := by
    refine sortOn_of_pairwise ?_
    have hle : ms.Pairwise fun a c => a.groupKey ≤ c.groupKey ∧ (a.groupKey = c.groupKey → a.placeKey ≤ c.placeKey) := by
      refine hgrouped.and (pairwise_of_ofGroup (fun key => ?_) fun a _ c _ hne heq => absurd heq hne)
      exact (hplace key).imp fun {a c} hac (_ : a.groupKey = c.groupKey) => hac
    refine hle.imp fun {a c} ⟨hkey, hac⟩ => ?_
    rw [← Bool.not_eq_true, List.lex_eq_true_iff_lt]
    refine not_lt_of_ge ?_
    rcases hkey.lt_or_eq with hlt | heq
    · exact (Barrier.sortKey_lt_of_groupKey_lt hlt).le
    · exact Barrier.sortKey_le_of_placeKey_le heq (hac heq)
  rw [mergeBarriers_eq_ok_iff, hsorted]
  exact ⟨hgrouped, hfixed⟩

/-! ## One group -/

/-- bounds whose counts are machine words -/
def ResourceKind.Worded : (k : ResourceKind) → k.Bounds → Prop
  | .texture, e => e.mips ≤ maxWord32 ∧ e.layers ≤ maxWord32
  | .buffer, n => n ≤ maxWord64

/-- bounds with room for a part are those a descriptor can have -/
theorem measured_of_inside {size : k.Bounds} {p : k.Part} (hsize : k.Worded size) (hp : k.Inside size p) :
    k.Measured size := by
  cases k with
  | texture =>
    obtain ⟨hmips, hlayers⟩ := hsize
    obtain ⟨⟨h1, h2⟩, h3, h4⟩ := hp
    exact ⟨⟨by omega, hmips⟩, by omega, hlayers⟩
  | buffer => exact hsize

/-- the parts of some barriers, each with its barrier -/
def partsOf (bs : List (Barrier k)) : List (Barrier k × k.Part) := bs.filterMap fun b => b.part.map (b, ·)

/-- the barrier of a run that begins with this one: of the whole resource if the run covers it -/
def Barrier.spanning (size : k.Bounds) (b : Barrier k) (p : k.Part) : Barrier k :=
  { b with part := if k.covers size p then none else some p }

variable {group : List (Barrier k)} {size : Nat → k.Bounds} {n : Nat} {runs : List (Barrier k × k.Part)}

theorem mem_partsOf {x : Barrier k × k.Part} : x ∈ partsOf group ↔ x.1 ∈ group ∧ x.1.part = some x.2 := by
  rw [partsOf, List.mem_filterMap]
  constructor
  · rintro ⟨c, hc, hx⟩
    obtain ⟨p, hp, rfl⟩ := Option.map_eq_some_iff.1 hx
    exact ⟨hc, hp⟩
  · rintro ⟨hx, hp⟩
    exact ⟨x.1, hx, by rw [hp]; rfl⟩

theorem pairwise_partsOf {R : Barrier k → Barrier k → Prop} {S : k.Part → k.Part → Prop} (h : group.Pairwise R)
    (hS : ∀ a ∈ group, ∀ c ∈ group, R a c → ∀ p q, a.part = some p → c.part = some q → S p q) :
    (partsOf group).Pairwise fun x y => S x.2 y.2 := by
  refine List.pairwise_filterMap.2 (h.imp_of_mem fun {a c} ha hc hac x hx y hy => ?_)
  obtain ⟨p, hp, rfl⟩ := Option.map_eq_some_iff.1 hx
  obtain ⟨q, hq, rfl⟩ := Option.map_eq_some_iff.1 hy
  exact hS a ha c hc hac p q hp hq

/-- a group with a barrier of the whole resource is merged to such a barrier -/
theorem mergeGroup_whole (bounds : Nat → Except Fault k.Bounds) (h : ∃ c ∈ group, c.part = none) :
    ∃ w ∈ group, w.part = none ∧ mergeGroup bounds group = .ok [w] := by
  obtain ⟨c, hc, hpart⟩ := h
  cases hf : group.find? (·.part.isNone) with
  | none => exact absurd (List.find?_eq_none.1 hf c hc) (by rw [hpart]; simp)
  | some w =>
    refine ⟨w, List.mem_of_find?_eq_some hf, by simpa using List.find?_some hf, ?_⟩
    simp only [mergeGroup, hf]

/-- without a whole-resource barrier, merging joins the parts -/
theorem mergeGroup_of_coalesce (hone : ∀ c ∈ group, c.resource = n) (hparts : ∀ c ∈ group, ∃ p, c.part = some p)
    (h : k.coalesce (partsOf group) = .ok runs) :
    mergeGroup (fun n => .ok (size n)) group = .ok (runs.map fun x => x.1.spanning (size n) x.2) := by
  cases group with
  | nil =>
    have hnil : runs = [] := by
      cases k <;> exact (Except.ok.inj h).symm
    rw [hnil]
    exact mergeGroup_nil
  | cons first rest =>
    have hfind : (first :: rest).find? (·.part.isNone) = none := by
      refine List.find?_eq_none.2 fun c hc => ?_
      obtain ⟨q, hq⟩ := hparts c hc
      rw [hq]
      simp
    have hcoalesce : k.coalesce ((first :: rest).filterMap fun c => c.part.map (c, ·)) = .ok runs := h
    simp only [mergeGroup, hfind, hcoalesce, hone first List.mem_cons_self]
    rfl

/-- **A group of parts is merged to the runs they are joined to.** -/
theorem mergeGroup_runs (hsize : k.Worded (size n)) (hone : ∀ c ∈ group, c.resource = n)
    (hparts : ∀ c ∈ group, ∃ p, c.part = some p ∧ k.Inside (size n) p) :
    ∃ runs, k.coalesce (partsOf group) = .ok runs ∧ Coalesced (size n) (partsOf group) runs ∧
      mergeGroup (fun n => .ok (size n)) group = .ok (runs.map fun x => x.1.spanning (size n) x.2) := by
  have hinside : ∀ x ∈ partsOf group, k.Inside (size n) x.2 := by
    intro x hx
    obtain ⟨hx, hpart⟩ := mem_partsOf.1 hx
    obtain ⟨q, hq, hin⟩ := hparts x.1 hx
    rw [hpart] at hq
    exact Option.some.inj hq ▸ hin
  obtain ⟨runs, e, h⟩ : ∃ runs, k.coalesce (partsOf group) = .ok runs ∧ Coalesced (size n) (partsOf group) runs := by
    cases hp : partsOf group with
    | nil =>
      refine ⟨[], ?_, Coalesced.refl fun x hx => absurd hx List.not_mem_nil⟩
      cases k <;> rfl
    | cons x rest =>
      rw [hp] at hinside
      exact coalesce_coalesced (measured_of_inside hsize (hinside x List.mem_cons_self)) hinside
  exact ⟨runs, e, h, mergeGroup_of_coalesce hone (fun c hc => (hparts c hc).imp fun _ h => h.1) e⟩

/-- the runs cover each address as often as the group did -/
theorem countP_reaches_runs (hparts : ∀ c ∈ group, ∃ p, c.part = some p) {size : k.Bounds}
    (h : Coalesced size (partsOf group) runs) (i : Nat) :
    (runs.map fun x => x.1.spanning size x.2).countP (fun m => k.reaches size m.part i) =
      group.countP fun c => k.reaches size c.part i := by
  by_cases hi : i < k.size size
  · calc (runs.map fun x => x.1.spanning size x.2).countP (fun m => k.reaches size m.part i)
        = runs.countP fun x => k.holds size x.2 i := by
          rw [List.countP_map]
          refine List.countP_congr fun x _ => ?_
          rw [Function.comp, Barrier.spanning, reaches_unless_covers, reaches_some, decide_eq_true hi, Bool.true_and]
      _ = (partsOf group).countP fun x => k.holds size x.2 i := h.count i
      _ = group.countP fun c => k.reaches size c.part i := by
          rw [partsOf, List.countP_filterMap]
          refine List.countP_congr fun c hc => ?_
          obtain ⟨p, hp⟩ := hparts c hc
          rw [hp, reaches_some, decide_eq_true hi]
          rfl
  · have hnone : ∀ part : Option k.Part, ¬ k.reaches size part i = true := fun _ hr => hi (lt_size_of_reaches hr)
    rw [List.countP_eq_zero.2 fun m _ => hnone m.part, List.countP_eq_zero.2 fun c _ => hnone c.part]

end FrameGraph
