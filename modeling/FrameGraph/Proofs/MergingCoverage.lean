/-
Merging any barriers keeps what they cover.

Nothing is asked of the barriers but that their parts fit: they may overlap, repeat each other and start from any state.
Addresses are counted with repetition (`Barrier.reaches`), so a barrier that was widened, lost or joined to the wrong one
would show.

- `Covering`: barriers that cover, group by group, what others cover.
- `Covering.exists_reaches_iff`, `Covering.apart`: the same addresses are covered, and barriers that do not overlap leave
  barriers that do not.
- `Tracker.stateAt_follow_of_apart`: what a tracker means that follows barriers which do not overlap.
- `Covering.follow_eq`: a tracker that follows barriers which do not overlap ends as if it followed the covering ones.
- `mergeBarriers_covers`: merging never faults and leaves such barriers.
-/
import FrameGraph.Proofs.MergingGroups
import FrameGraph.Proofs.TrueStates

namespace FrameGraph

open ResourceKind

variable {k : ResourceKind}

/-! ## Counting -/

section Counting

variable {α ι : Type} {l : List α}

theorem countP_le_one {p : α → Bool} (h : l.Pairwise fun a c => ¬ (p a = true ∧ p c = true)) : l.countP p ≤ 1 := by
  induction l with
  | nil => exact Nat.zero_le 1
  | cons a l ih =>
    obtain ⟨ha, hl⟩ := List.pairwise_cons.1 h
    by_cases hp : p a = true
    · rw [List.countP_cons_of_pos hp, List.countP_eq_zero.2 fun c hc hpc => ha c hc ⟨hp, hpc⟩]
    · rw [List.countP_cons_of_neg hp]
      exact ih hl

theorem pairwise_of_countP_le_one {p : ι → α → Bool} (h : ∀ i, l.countP (p i) ≤ 1) :
    l.Pairwise fun a c => ∀ i, ¬ (p i a = true ∧ p i c = true) := by
  induction l with
  | nil => exact List.Pairwise.nil
  | cons a l ih =>
    refine List.pairwise_cons.2 ⟨fun c hc i ⟨hpa, hpc⟩ => ?_, ih fun i => ?_⟩
    · have hi := h i
      have hpos : 0 < l.countP (p i) := List.countP_pos_iff.2 ⟨c, hc, hpc⟩
      rw [List.countP_cons_of_pos hpa] at hi
      omega
    · exact (List.sublist_cons_self a l).countP_le.trans (h i)

end Counting

theorem count_map_groupKey (key : List Nat) (bs : List (Barrier k)) :
    (bs.map Barrier.groupKey).count key = (ofGroup key bs).length := by
  rw [List.count, List.countP_map, ofGroup, ← List.countP_eq_length_filter]
  refine List.countP_congr fun b _ => ?_
  simp

/-- a list none of whose groups is longer is not longer -/
theorem length_le_of_ofGroup {bs ms : List (Barrier k)}
    (h : ∀ key, (ofGroup key ms).length ≤ (ofGroup key bs).length) : ms.length ≤ bs.length := by
  have hsub : (ms.map Barrier.groupKey).Subperm (bs.map Barrier.groupKey) := by
    refine List.subperm_ext_iff.2 fun key _ => ?_
    rw [count_map_groupKey, count_map_groupKey]
    exact h key
  simpa using hsub.length_le

/-! ## Covering -/

/-- the barrier covers address `i` of its resource -/
def Barrier.reaches (size : Nat → k.Bounds) (b : Barrier k) (i : Nat) : Bool := k.reaches (size b.resource) b.part i

/-- the part of the barrier fits its resource -/
def Barrier.Fitting (size : Nat → k.Bounds) (b : Barrier k) : Prop :=
  ∀ p, b.part = some p → k.Inside (size b.resource) p

/-- the barriers have no address in common -/
def Barrier.Apart (size : Nat → k.Bounds) (a c : Barrier k) : Prop :=
  a.resource = c.resource → ∀ i, ¬ (a.reaches size i = true ∧ c.reaches size i = true)

/-- barriers that cover, group by group, what other barriers cover -/
structure Covering (size : Nat → k.Bounds) (bs ms : List (Barrier k)) : Prop where
  /-- they are no more than the given ones -/
  fewer : ms.length ≤ bs.length
  /-- each is a given one with another part, so of the same native object -/
  origin : ∀ m ∈ ms, ∃ c ∈ bs, ∃ p, m = { c with part := p }
  /-- its part fits -/
  fits : ∀ m ∈ ms, m.Fitting size
  /-- of a group with a whole-resource barrier there is one such barrier -/
  whole : ∀ key, (∃ c ∈ ofGroup key bs, c.part = none) → ∃ w ∈ ofGroup key bs, w.part = none ∧ ofGroup key ms = [w]
  /-- those of any other group cover each address as often as the given ones do -/
  count : ∀ key, (∀ c ∈ ofGroup key bs, c.part ≠ none) → ∀ i,
    (ofGroup key ms).countP (·.reaches size i) = (ofGroup key bs).countP (·.reaches size i)

variable {size : Nat → k.Bounds} {bs ms : List (Barrier k)} {key : List Nat}

theorem Barrier.apart_symm {a c : Barrier k} (h : a.Apart size c) : c.Apart size a :=
  fun hr i hi => h hr.symm i hi.symm

/-- barriers of a list without overlaps that cover one address are the same barrier -/
theorem eq_of_reaches (h : bs.Pairwise (Barrier.Apart size)) {a c : Barrier k} (ha : a ∈ bs) (hc : c ∈ bs)
    (hr : a.resource = c.resource) {i : Nat} (hai : a.reaches size i = true) (hci : c.reaches size i = true) : a = c := by
  have : Std.Symm (Barrier.Apart size) := ⟨fun _ _ => Barrier.apart_symm⟩
  by_contra hne
  exact h.forall ha hc hne hr i ⟨hai, hci⟩

namespace Covering

/-- **The same addresses are covered, group by group.** -/
theorem exists_reaches_iff (h : Covering size bs ms) (key : List Nat) (i : Nat) :
    (∃ m ∈ ofGroup key ms, m.reaches size i = true) ↔ ∃ c ∈ ofGroup key bs, c.reaches size i = true := by
  by_cases hw : ∃ c ∈ ofGroup key bs, c.part = none
  · obtain ⟨w, hw, hpart, hms⟩ := h.whole key hw
    rw [hms]
    constructor
    · rintro ⟨m, hm, hi⟩
      exact ⟨w, hw, List.mem_singleton.1 hm ▸ hi⟩
    · rintro ⟨c, hc, hi⟩
      refine ⟨w, List.mem_singleton_self w, ?_⟩
      rw [Barrier.reaches, hpart, reaches_none, resource_eq_of_mem_ofGroup hw hc]
      exact decide_eq_true (lt_size_of_reaches hi)
  · have hcount := h.count key (fun c hc hpart => hw ⟨c, hc, hpart⟩) i
    rw [← List.countP_pos_iff, hcount, List.countP_pos_iff]

/-- **Barriers without overlaps leave barriers without overlaps.** -/
theorem apart (h : Covering size bs ms) (hd : bs.Pairwise (Barrier.Apart size)) : ms.Pairwise (Barrier.Apart size) := by
  refine pairwise_of_ofGroup (fun key => ?_) fun m hm m' hm' hne hr i ⟨hi, hi'⟩ => ?_
  · by_cases hw : ∃ c ∈ ofGroup key bs, c.part = none
    · obtain ⟨w, -, -, hms⟩ := h.whole key hw
      rw [hms]
      exact List.pairwise_singleton _ w
    · have hgroup : (ofGroup key bs).Pairwise (Barrier.Apart size) := hd.sublist List.filter_sublist
      refine (pairwise_of_countP_le_one (p := fun i (b : Barrier k) => b.reaches size i) fun i => ?_).imp
        fun {a c} hac (_ : a.resource = c.resource) => hac
      rw [h.count key (fun c hc hpart => hw ⟨c, hc, hpart⟩) i]
      refine countP_le_one (hgroup.imp_of_mem fun {a c} ha hc hac => hac (resource_eq_of_mem_ofGroup ha hc) i)
  · -- two groups that cover one address did so before
    obtain ⟨c, hc, hci⟩ := (h.exists_reaches_iff m.groupKey i).1 ⟨m, mem_ofGroup.2 ⟨hm, rfl⟩, hi⟩
    obtain ⟨c', hc', hci'⟩ := (h.exists_reaches_iff m'.groupKey i).1 ⟨m', mem_ofGroup.2 ⟨hm', rfl⟩, hi'⟩
    obtain ⟨hc, hkey⟩ := mem_ofGroup.1 hc
    obtain ⟨hc', hkey'⟩ := mem_ofGroup.1 hc'
    have hresource : c.resource = c'.resource :=
      (groupKey_eq_iff.1 hkey).1.trans (hr.trans (groupKey_eq_iff.1 hkey').1.symm)
    rw [eq_of_reaches hd hc hc' hresource hci hci'] at hkey
    exact hne (hkey.symm.trans hkey')

/-- a barrier that is left starts from the state of what it covers if the given ones do -/
theorem starts (h : Covering size bs ms) {s : Nat → Option ResourceState} {n : Nat}
    (hs : ∀ c ∈ bs, c.resource = n → ∀ i, c.reaches size i = true → s i = some c.before) :
    ∀ m ∈ ms, m.resource = n → ∀ i, m.reaches size i = true → s i = some m.before := by
  intro m hm hr i hi
  obtain ⟨c, hc, hci⟩ := (h.exists_reaches_iff m.groupKey i).1 ⟨m, mem_ofGroup.2 ⟨hm, rfl⟩, hi⟩
  obtain ⟨hc, hkey⟩ := mem_ofGroup.1 hc
  obtain ⟨hresource, hbefore, -, -⟩ := groupKey_eq_iff.1 hkey
  rw [hs c hc (hresource.trans hr) i hci, hbefore]

end Covering

/-! ## Following barriers that do not overlap -/

namespace Tracker

variable {t : Tracker k}

/-- without addresses there is nothing to follow -/
theorem follow_of_empty (hv : t.Valid) (hz : k.size t.bounds = 0) (bs : List (Barrier k)) : t.follow bs = t := by
  induction bs with
  | nil => rfl
  | cons b bs ih =>
    rw [follow, List.foldl_cons, transition_of_empty hv hz]
    exact ih

/-- **Of barriers that do not overlap, each address follows the one that covers it.** -/
theorem stateAt_follow_of_apart (hv : t.Valid) {bs : List (Barrier k)}
    (hd : bs.Pairwise fun a c => ∀ i, ¬ (k.reaches t.bounds a.part i = true ∧ k.reaches t.bounds c.part i = true))
    (i : Nat) :
    (t.follow bs).stateAt i = ((bs.find? fun b => k.reaches t.bounds b.part i).map Barrier.after).or (t.stateAt i) := by
  induction bs generalizing t with
  | nil => rfl
  | cons b bs ih =>
    obtain ⟨hb, hbs⟩ := List.pairwise_cons.1 hd
    have hbounds : (t.transition b.part b.after).1.bounds = t.bounds := bounds_transition hv
    have hrest := ih (t := (t.transition b.part b.after).1) (valid_transition hv) (by rwa [hbounds])
    rw [hbounds, stateAt_transition hv] at hrest
    refine hrest.trans ?_
    let p : Barrier k → Bool := fun b => k.reaches t.bounds b.part i
    by_cases hi : k.reaches t.bounds b.part i = true
    · have hnone : (bs.find? fun b => k.reaches t.bounds b.part i) = none :=
        List.find?_eq_none.2 fun c hc hci => hb c hc i ⟨hi, hci⟩
      rw [hnone, List.find?_cons_of_pos (p := p) hi, if_pos hi]
      rfl
    · rw [List.find?_cons_of_neg (p := p) hi, if_neg hi]

/-- moving a part that has addresses leaves a canonical tracker, whatever the store was -/
theorem canonical_transition {part : Option k.Part} {a : ResourceState} (initial : ResourceState) (hv : t.Valid)
    {p : k.Part} (hr : k.region t.bounds part = some p) : (t.transition part a).1.Canonical initial := by
  have hp := inside_of_region hv.measured hr
  obtain ⟨i, hi, -⟩ := exists_holds hp
  obtain ⟨b, c⟩ := t
  cases c with
  | whole v =>
    refine Canonical.transition ⟨hv, fun s hs => ?_, fun hz => ?_⟩
    · cases hs
    · exact absurd hi (by rw [hz]; exact Nat.not_lt_zero i)
  | split s =>
    have hmove : transition ⟨b, .split s⟩ part a = moveIn ⟨b, .split s⟩ s p a := by simp only [transition, hr]
    rw [hmove]
    exact canonical_moveIn hv.measured (hv.sized s rfl) hp

end Tracker

/-- a part that fits, or the whole of a resource with addresses, is something -/
theorem exists_region {b : k.Bounds} (hpos : 0 < k.size b) {part : Option k.Part}
    (hp : ∀ p, part = some p → k.Inside b p) : ∃ p, k.region b part = some p := by
  refine Option.ne_none_iff_exists'.1 fun hnone => ?_
  cases part with
  | none => exact hpos.ne' (size_of_everything_none hnone)
  | some p =>
    obtain ⟨i, hi, hh⟩ := exists_holds (hp p rfl)
    rw [holds_of_clamp_none hnone hi] at hh
    cases hh

theorem Tracker.canonical_follow {t : Tracker k} (initial : ResourceState) (hv : t.Valid) (hpos : 0 < k.size t.bounds)
    {bs : List (Barrier k)} (hne : bs ≠ []) (hfit : ∀ b ∈ bs, ∀ p, b.part = some p → k.Inside t.bounds p) :
    (t.follow bs).Canonical initial := by
  cases bs with
  | nil => exact absurd rfl hne
  | cons b bs =>
    obtain ⟨p, hp⟩ := exists_region hpos (hfit b List.mem_cons_self)
    exact ((canonical_transition initial hv hp).follow bs).1

theorem Tracker.bounds_follow {t : Tracker k} (hv : t.Valid) (bs : List (Barrier k)) :
    (t.follow bs).bounds = t.bounds := by
  induction bs generalizing t with
  | nil => rfl
  | cons b bs ih => exact (ih (valid_transition hv)).trans (bounds_transition hv)

/-! ## Following what is left -/

section Following

variable {t : Tracker k} {n : Nat}

theorem mem_on {b : Barrier k} : b ∈ bs.filter (fun b => b.resource = n) ↔ b ∈ bs ∧ b.resource = n := by
  rw [List.mem_filter, decide_eq_true_eq]

/-- the barriers on one resource do not overlap at the addresses of its tracker -/
theorem apart_on (hd : bs.Pairwise (Barrier.Apart size)) (hb : t.bounds = size n) :
    (bs.filter fun b => b.resource = n).Pairwise fun a c =>
      ∀ i, ¬ (k.reaches t.bounds a.part i = true ∧ k.reaches t.bounds c.part i = true) := by
  refine (hd.sublist List.filter_sublist).imp_of_mem fun {a c} ha hc hac i => ?_
  obtain ⟨-, rfl⟩ := mem_on.1 ha
  have hr := (mem_on.1 hc).2
  have hi := hac hr.symm i
  rw [Barrier.reaches, Barrier.reaches, hr, ← hb] at hi
  exact hi

namespace Covering

/-- what covers an address, if anything does, moves it to the same state before and after -/
theorem find_after_eq (h : Covering size bs ms) (hd : bs.Pairwise (Barrier.Apart size)) (i : Nat) :
    ((ms.filter fun b => b.resource = n).find? fun b => k.reaches (size n) b.part i).map Barrier.after =
      ((bs.filter fun b => b.resource = n).find? fun b => k.reaches (size n) b.part i).map Barrier.after := by
  let p : Barrier k → Bool := fun b => k.reaches (size n) b.part i
  have hcovered : ∀ {l : List (Barrier k)} {b : Barrier k}, b ∈ l.filter (fun b => b.resource = n) →
      (k.reaches (size n) b.part i = true ↔ b.reaches size i = true) := by
    intro l b hb
    rw [Barrier.reaches, (mem_on.1 hb).2]
  cases hf : (ms.filter fun b => b.resource = n).find? fun b => k.reaches (size n) b.part i with
  | none =>
    rw [List.find?_eq_none.2 fun c hc hi => ?_]
    have hreach := (hcovered hc).1 hi
    obtain ⟨hc, hr⟩ := mem_on.1 hc
    obtain ⟨m, hm, hmi⟩ := (h.exists_reaches_iff c.groupKey i).2 ⟨c, mem_ofGroup.2 ⟨hc, rfl⟩, hreach⟩
    obtain ⟨hm, hkey⟩ := mem_ofGroup.1 hm
    have hon : m ∈ ms.filter fun b => b.resource = n := mem_on.2 ⟨hm, (groupKey_eq_iff.1 hkey).1.trans hr⟩
    exact List.find?_eq_none.1 hf m hon ((hcovered hon).2 hmi)
  | some m =>
    have hon := List.mem_of_find?_eq_some hf
    have hreach := (hcovered hon).1 (List.find?_some (p := p) hf)
    obtain ⟨hm, hr⟩ := mem_on.1 hon
    obtain ⟨c, hc, hci⟩ := (h.exists_reaches_iff m.groupKey i).1 ⟨m, mem_ofGroup.2 ⟨hm, rfl⟩, hreach⟩
    obtain ⟨hc, hkey⟩ := mem_ofGroup.1 hc
    obtain ⟨hresource, -, hafter, -⟩ := groupKey_eq_iff.1 hkey
    have hcon : c ∈ bs.filter fun b => b.resource = n := mem_on.2 ⟨hc, hresource.trans hr⟩
    -- no other barrier covers the address
    cases hg : (bs.filter fun b => b.resource = n).find? fun b => k.reaches (size n) b.part i with
    | none => exact absurd ((hcovered hcon).2 hci) (List.find?_eq_none.1 hg c hcon)
    | some d =>
      have hdon := List.mem_of_find?_eq_some hg
      have hdi := (hcovered hdon).1 (List.find?_some (p := p) hg)
      obtain ⟨hdm, hdr⟩ := mem_on.1 hdon
      rw [eq_of_reaches hd hdm hc (hdr.trans (hresource.trans hr).symm) hdi hci, Option.map_some, Option.map_some, hafter]

/-- **A tracker that follows barriers which do not overlap ends as if it followed the covering ones.** -/
theorem follow_eq (h : Covering size bs ms) (hfit : ∀ b ∈ bs, b.Fitting size) (hd : bs.Pairwise (Barrier.Apart size))
    (hv : t.Valid) (hb : t.bounds = size n) :
    t.follow (ms.filter fun b => b.resource = n) = t.follow (bs.filter fun b => b.resource = n) := by
  rcases Nat.eq_zero_or_pos (k.size t.bounds) with hz | hpos
  · rw [Tracker.follow_of_empty hv hz, Tracker.follow_of_empty hv hz]
  have hfitting : ∀ {l : List (Barrier k)}, (∀ b ∈ l, b.Fitting size) → ∀ b ∈ l.filter fun b => b.resource = n,
      ∀ p, b.part = some p → k.Inside t.bounds p := by
    intro l hl b hmem p hp
    obtain ⟨hl', hr⟩ := mem_on.1 hmem
    rw [hb, ← hr]
    exact hl b hl' p hp
  by_cases hnil : bs.filter (fun b => b.resource = n) = []
  · have hnil' : ms.filter (fun b => b.resource = n) = [] := by
      refine List.eq_nil_iff_forall_not_mem.2 fun m hm => ?_
      obtain ⟨hm, hr⟩ := mem_on.1 hm
      obtain ⟨c, hc, p, rfl⟩ := h.origin m hm
      exact List.eq_nil_iff_forall_not_mem.1 hnil c (mem_on.2 ⟨hc, hr⟩)
    rw [hnil, hnil']
  · have hnil' : ms.filter (fun b => b.resource = n) ≠ [] := by
      obtain ⟨c, hc⟩ := List.exists_mem_of_ne_nil _ hnil
      obtain ⟨p, hp⟩ := exists_region hpos (hfitting hfit c hc)
      obtain ⟨i, hi, hh⟩ := exists_holds (inside_of_region hv.measured hp)
      have hreach : k.reaches t.bounds c.part i = true := by
        rw [← reaches_of_region hv.measured hp, reaches_some, decide_eq_true hi, hh]
        rfl
      obtain ⟨hc, hr⟩ := mem_on.1 hc
      rw [hb, ← hr] at hreach
      obtain ⟨m, hm, -⟩ := (h.exists_reaches_iff c.groupKey i).2 ⟨c, mem_ofGroup.2 ⟨hc, rfl⟩, hreach⟩
      obtain ⟨hm, hkey⟩ := mem_ofGroup.1 hm
      exact List.ne_nil_of_mem (mem_on.2 ⟨hm, (groupKey_eq_iff.1 hkey).1.trans hr⟩)
    have hms := Tracker.canonical_follow .undefined hv hpos hnil' (hfitting h.fits)
    have hbs := Tracker.canonical_follow .undefined hv hpos hnil (hfitting hfit)
    refine hms.eq_of_stateAt hbs ?_ fun i => ?_
    · rw [Tracker.bounds_follow hv, Tracker.bounds_follow hv]
    · rw [Tracker.stateAt_follow_of_apart hv (apart_on (h.apart hd) hb),
        Tracker.stateAt_follow_of_apart hv (apart_on hd hb), hb, h.find_after_eq hd]

end Covering

end Following

/-! ## Merging -/

/-- a group is merged to barriers that cover what it covers -/
theorem mergeGroup_covering (hsize : ∀ n, k.Worded (size n)) {group : List (Barrier k)}
    (hone : ∀ a ∈ group, ∀ c ∈ group, a.groupKey = c.groupKey) (hfit : ∀ c ∈ group, c.Fitting size) :
    ∃ ms, mergeGroup (fun n => .ok (size n)) group = .ok ms ∧ ms.length ≤ group.length ∧ (∀ m ∈ ms, m.Fitting size) ∧
      ((∃ c ∈ group, c.part = none) → ∃ w ∈ group, w.part = none ∧ ms = [w]) ∧
      ((∀ c ∈ group, c.part ≠ none) → ∀ i, ms.countP (·.reaches size i) = group.countP (·.reaches size i)) := by
  by_cases hw : ∃ c ∈ group, c.part = none
  · obtain ⟨w, hmem, hpart, hmerge⟩ := mergeGroup_whole (fun n => .ok (size n)) hw
    refine ⟨[w], hmerge, List.length_pos_of_mem hmem, fun m hm p hp => ?_, fun _ => ⟨w, hmem, hpart, rfl⟩, fun h => ?_⟩
    · rw [List.mem_singleton.1 hm, hpart] at hp
      cases hp
    · exact absurd hpart (h w hmem)
  · cases group with
    | nil =>
      exact ⟨[], mergeGroup_nil, le_rfl, fun m hm => absurd hm List.not_mem_nil, fun h => absurd h hw, fun _ _ => rfl⟩
    | cons first rest =>
      have hresource : ∀ c ∈ first :: rest, c.resource = first.resource := fun c hc =>
        (groupKey_eq_iff.1 (hone c hc first List.mem_cons_self)).1
      have hparts : ∀ c ∈ first :: rest, ∃ p, c.part = some p ∧ k.Inside (size first.resource) p := by
        intro c hc
        obtain ⟨p, hp⟩ := Option.ne_none_iff_exists'.1 fun hnone => hw ⟨c, hc, hnone⟩
        exact ⟨p, hp, hresource c hc ▸ hfit c hc p hp⟩
      obtain ⟨runs, -, hruns, hmerge⟩ := mergeGroup_runs (hsize _) hresource hparts
      have hrun : ∀ x ∈ runs, x.1.resource = first.resource := fun x hx => hresource _ (mem_of_runs hruns x hx)
      refine ⟨_, hmerge, ?_, fun m hm p hp => ?_, fun h => absurd h hw, fun _ i => ?_⟩
      · rw [List.length_map]
        exact hruns.fewer.trans (List.length_filterMap_le _ _)
      · obtain ⟨x, hx, rfl⟩ := List.mem_map.1 hm
        simp only [Barrier.spanning] at hp ⊢
        rw [hrun x hx]
        split at hp
        · cases hp
        · exact Option.some.inj hp ▸ hruns.inside x hx
      · have hcount := countP_reaches_runs (fun c hc => (hparts c hc).imp fun _ h => h.1) hruns i
        refine (List.countP_congr fun m hm => ?_).trans (hcount.trans (List.countP_congr fun c hc => ?_))
        · obtain ⟨x, hx, rfl⟩ := List.mem_map.1 hm
          rw [Barrier.reaches, ← hrun x hx]
          rfl
        · rw [Barrier.reaches, hresource c hc]

/-- barriers whose parts fit are merged without fault, to barriers that cover what they cover -/
theorem exists_covering (hsize : ∀ n, k.Worded (size n)) (hfit : ∀ b ∈ bs, b.Fitting size) :
    ∃ ms, mergeBarriers (fun n => .ok (size n)) bs = .ok ms ∧ Covering size bs ms := by
  have hperm := fun key => ofGroup_sorted_perm key bs
  have hone : ∀ key, ∀ a ∈ ofGroup key (sortOn Barrier.sortKey bs), ∀ c ∈ ofGroup key (sortOn Barrier.sortKey bs),
      a.groupKey = c.groupKey := fun _ _ ha _ hc => groupKey_eq_of_mem_ofGroup ha hc
  have hgroup : ∀ key, ∃ ms, _ := fun key =>
    mergeGroup_covering hsize (hone key) fun c hc => hfit c (mem_sortOn.1 (mem_ofGroup.1 hc).1)
  obtain ⟨ms, hms⟩ := exists_mergeBarriers fun key => (hgroup key).imp fun _ h => h.1
  obtain ⟨-, hmerge⟩ := of_mergeBarriers hms
  have hleft : ∀ key, (ofGroup key ms).length ≤ (ofGroup key bs).length ∧ (∀ m ∈ ofGroup key ms, m.Fitting size) ∧
      ((∃ c ∈ ofGroup key bs, c.part = none) → ∃ w ∈ ofGroup key bs, w.part = none ∧ ofGroup key ms = [w]) ∧
      ((∀ c ∈ ofGroup key bs, c.part ≠ none) → ∀ i,
        (ofGroup key ms).countP (·.reaches size i) = (ofGroup key bs).countP (·.reaches size i)) := by
    intro key
    obtain ⟨ms', hms', hlength, hfits, hwhole, hcount⟩ := hgroup key
    obtain rfl : ofGroup key ms = ms' := Except.ok.inj ((hmerge key).symm.trans hms')
    have hmem : ∀ c, c ∈ ofGroup key (sortOn Barrier.sortKey bs) ↔ c ∈ ofGroup key bs := fun c => (hperm key).mem_iff
    simp only [hmem, (hperm key).length_eq, (hperm key).countP_eq] at hlength hwhole hcount
    exact ⟨hlength, hfits, hwhole, hcount⟩
  exact ⟨ms, hms,
    { fewer := length_le_of_ofGroup fun key => (hleft key).1
      origin := exists_of_mergeBarriers hms
      fits := fun m hm => (hleft m.groupKey).2.1 m (mem_ofGroup.2 ⟨hm, rfl⟩)
      whole := fun key => (hleft key).2.2.1
      count := fun key => (hleft key).2.2.2 }⟩

/-- **Merging keeps what is covered, and how often.** The barriers can be any whose parts fit. A group with a
whole-resource barrier is left as one such barrier; any other group covers each address as often as it did. So a tracker
that follows barriers which do not overlap ends the same whether they are merged or not, and the merged ones start from
its states if the given ones do. -/
theorem mergeBarriers_covers (hsize : ∀ n, k.Worded (size n)) (hfit : ∀ b ∈ bs, b.Fitting size) :
    ∃ ms, mergeBarriers (fun n => .ok (size n)) bs = .ok ms ∧ Covering size bs ms ∧
      (bs.Pairwise (Barrier.Apart size) → ∀ (n : Nat) (t : Tracker k), t.Valid → t.bounds = size n →
        t.follow (ms.filter fun b => b.resource = n) = t.follow (bs.filter fun b => b.resource = n) ∧
          ((∀ c ∈ bs, c.resource = n → ∀ i, c.reaches size i = true → t.stateAt i = some c.before) →
            ∀ m ∈ ms, m.resource = n → ∀ i, m.reaches size i = true → t.stateAt i = some m.before)) := by
  obtain ⟨ms, hms, hcovering⟩ := exists_covering hsize hfit
  exact ⟨ms, hms, hcovering, fun hd n t hv hb => ⟨hcovering.follow_eq hfit hd hv hb, hcovering.starts⟩⟩

/-- a barrier that makes a part of a texture ready to be drawn to -/
def toTarget (n : Nat) (part : Option Subresources) : Barrier .texture := ⟨n, n, .undefined, .renderTarget, .color, part⟩

/-- parts that overlap and a texture that is moved as a whole besides; and two parts without overlaps -/
theorem mergeBarriers_covers_sample :
    let size : Nat → texture.Bounds := fun _ => ⟨3, 2⟩
    let twice := [toTarget 1 (some (.ofMips 1 2 0 1)), toTarget 0 (some (.ofMips 0 2 0 2)),
      toTarget 1 (some (.ofMips 1 2 1 1)), toTarget 0 none, toTarget 1 (some (.ofMips 1 2 0 1)),
      toTarget 1 (some (.cell 0 0))]
    let merged := [toTarget 0 none, toTarget 1 (some (.ofMips 0 3 0 1)), toTarget 1 (some (.ofMips 1 2 0 2))]
    let once := [toTarget 0 (some (.ofMips 1 2 0 2)), toTarget 0 (some (.cell 0 1))]
    let t : Tracker .texture := .uniform ⟨3, 2⟩ .undefined
    mergeBarriers (fun n => .ok (size n)) twice = .ok merged ∧ Covering size twice merged ∧
      ∃ ms, mergeBarriers (fun n => .ok (size n)) once = .ok ms ∧
        t.follow (ms.filter fun b => b.resource = 0) = t.follow (once.filter fun b => b.resource = 0) := by
  intro size twice merged once t
  have hsize : ∀ n, texture.Worded (size n) := fun _ => ⟨by decide, by decide⟩
  have htwice : ∀ b ∈ twice, b.Fitting size := by
    simp +decide [twice, size, Barrier.Fitting, toTarget, Inside, Subresources.ofMips, Subresources.cell]
  have honce : ∀ b ∈ once, b.Fitting size := by
    simp +decide [once, size, Barrier.Fitting, toTarget, Inside, Subresources.ofMips, Subresources.cell]
  have hd : once.Pairwise (Barrier.Apart size) := by
    refine List.pairwise_pair.2 fun _ i hreached => ?_
    obtain ⟨h, h'⟩ := hreached
    have hi : i < 6 := lt_size_of_reaches h
    interval_cases i <;> revert h h' <;> decide
  obtain ⟨ms, hms, hcovering, -⟩ := mergeBarriers_covers hsize htwice
  obtain ⟨ms', hms', -, hfollow⟩ := mergeBarriers_covers hsize honce
  have hmerge : mergeBarriers (fun n => .ok (size n)) twice = .ok merged := by decide +kernel
  rw [hmerge] at hms
  cases hms
  have hextent : texture.Measured (⟨3, 2⟩ : Extent) := ⟨⟨by decide, by decide⟩, by decide, by decide⟩
  have ht : t.Valid := Tracker.valid_uniform hextent _
  exact ⟨hmerge, hcovering, ms', hms', (hfollow hd 0 t ht rfl).1⟩

end FrameGraph
