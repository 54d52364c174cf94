/-
Merging spans without overlaps gives the maximal intervals of their union.

The spans of a group, sorted, come one after the other; joined, they have gaps between them (`separating_spans`). Spans
with gaps between them are the maximal intervals of the bytes they have (`mem_iff_maximalIn`), so they are known by these
bytes alone, whatever the given spans were and in whatever order they came.

- `ByteSpan.MaximalIn`: a span that cannot be made longer within a set of bytes.
- `Spanwise`: barriers of which those of a group have no byte in common.
- `mergeBarriers_spans`: what merging leaves of each group, in ascending order of the groups; its independence of the order
  of the barriers; and that merging once more changes nothing.
-/
import FrameGraph.Proofs.Coalescing

namespace FrameGraph

open ResourceKind

/-! ## Maximal intervals -/

/-- the span is an interval of the set with nothing of the set next to it -/
structure ByteSpan.MaximalIn (s : Nat → Prop) (r : ByteSpan) : Prop where
  nonempty : 0 < r.size
  within : ∀ i, r.contains i = true → s i
  before : ∀ i, i + 1 = r.offset → ¬ s i
  after : ¬ s (r.offset + r.size)

theorem ByteSpan.contains_iff {r : ByteSpan} {i : Nat} : r.contains i = true ↔ r.offset ≤ i ∧ i < r.offset + r.size := by
  simp [contains]

/-- the first span ends before the second one begins, and there is a byte between them -/
def Gap (p q : ByteSpan) : Prop := p.offset + p.size < q.offset

section Maximal

variable {s : Nat → Prop} {p q r : ByteSpan} {spans : List ByteSpan}

/-- a maximal interval that holds the first byte of another one begins there and is no shorter -/
theorem ByteSpan.MaximalIn.le_of_contains (hp : p.MaximalIn s) (hq : q.MaximalIn s) (h : p.contains q.offset = true) :
    p.offset = q.offset ∧ p.size ≤ q.size := by
  obtain ⟨h1, h2⟩ := contains_iff.1 h
  have hoffset : p.offset = q.offset := by
    by_contra hne
    exact hq.before (q.offset - 1) (by omega) (hp.within _ (contains_iff.2 (by omega)))
  refine ⟨hoffset, ?_⟩
  by_contra hlt
  exact hq.after (hp.within _ (contains_iff.2 (by omega)))

/-- maximal intervals that meet are equal -/
theorem ByteSpan.MaximalIn.eq_of_contains (hp : p.MaximalIn s) (hq : q.MaximalIn s) (h : p.contains q.offset = true) :
    p = q := by
  obtain ⟨hoffset, hle⟩ := hp.le_of_contains hq h
  have hback : q.contains p.offset = true := contains_iff.2 ⟨hoffset.ge, by have := hq.nonempty; omega⟩
  obtain ⟨-, hge⟩ := hq.le_of_contains hp hback
  cases p
  cases q
  simp only [ByteSpan.mk.injEq]
  exact ⟨hoffset, le_antisymm hle hge⟩

/-- of spans with gaps between them, one that has a byte next to or in another one is that one -/
theorem eq_of_gap (h : spans.Pairwise Gap) (hp : p ∈ spans) (hq : q ∈ spans) {i : Nat} (hi : p.contains i = true)
    (hlow : q.offset ≤ i + 1) (hhigh : i ≤ q.offset + q.size) : p = q := by
  let R : ByteSpan → ByteSpan → Prop := fun p q => Gap p q ∨ Gap q p
  have : Std.Symm R := ⟨fun _ _ => Or.symm⟩
  have hgaps : spans.Pairwise R := h.imp Or.inl
  by_contra hne
  obtain ⟨h1, h2⟩ := ByteSpan.contains_iff.1 hi
  have hgap := hgaps.forall hp hq hne
  simp only [R, Gap] at hgap
  omega

/-- **Spans with gaps between them are the maximal intervals of their bytes.** -/
theorem mem_iff_maximalIn (h : spans.Pairwise Gap) (hne : ∀ p ∈ spans, 0 < p.size)
    (hs : ∀ i, s i ↔ ∃ p ∈ spans, p.contains i = true) : r ∈ spans ↔ r.MaximalIn s := by
  have hmaximal : ∀ p ∈ spans, p.MaximalIn s := by
    intro p hp
    have hpos := hne p hp
    refine ⟨hpos, fun i hi => (hs i).2 ⟨p, hp, hi⟩, fun i hnext hi => ?_, fun hi => ?_⟩
    · obtain ⟨q, hq, hqi⟩ := (hs i).1 hi
      obtain rfl := eq_of_gap h hq hp hqi hnext.ge (by omega)
      obtain ⟨hle, -⟩ := ByteSpan.contains_iff.1 hqi
      omega
    · obtain ⟨q, hq, hqi⟩ := (hs _).1 hi
      obtain rfl := eq_of_gap h hq hp hqi (by omega) le_rfl
      obtain ⟨-, hlt⟩ := ByteSpan.contains_iff.1 hqi
      omega
  refine ⟨hmaximal r, fun hr => ?_⟩
  have hfirst : r.contains r.offset = true := ByteSpan.contains_iff.2 ⟨le_rfl, by have := hr.nonempty; omega⟩
  obtain ⟨p, hp, hpi⟩ := (hs r.offset).1 (hr.within _ hfirst)
  rwa [← (hmaximal p hp).eq_of_contains hr hpi]

end Maximal

/-! ## Joining spans -/

section Joining

variable {β : Type} {n : Nat} {p q c : ByteSpan} {parts runs : List (β × ByteSpan)}

/-- the second span begins no earlier than the first one ends -/
def SpanBefore (p q : ByteSpan) : Prop := q.offset ≤ maxWord64 ∧ p.offset + p.size ≤ q.offset

theorem grow_eq_ok (h : p.grow q = .ok c) : c = { p with size := p.size + q.size } := by
  unfold ByteSpan.grow checkedAdd at h
  split at h
  · exact (Except.ok.inj h).symm
  · cases h

theorem separating_spans : Separating ByteSpan.meets ByteSpan.grow SpanBefore Gap where
  gap := fun p q ⟨hmax, hle⟩ hmeets => by
    refine lt_of_le_of_ne hle fun heq => ?_
    rw [ByteSpan.meets, ByteSpan.stop, saturatingAdd_eq (hle.trans hmax), heq] at hmeets
    simp at hmeets
  trans := fun p q r hpq ⟨_, hqr⟩ => by
    unfold Gap at *
    omega
  grow_right := fun w p q c hwp hgrow => by
    rw [grow_eq_ok hgrow]
    exact hwp
  grow_left := fun p q r c ⟨hmax, hpq⟩ hmeets hgrow ⟨hmax', hqr⟩ => by
    rw [ByteSpan.meets, ByteSpan.stop, saturatingAdd_eq (hpq.trans hmax), beq_iff_eq] at hmeets
    rw [grow_eq_ok hgrow]
    refine ⟨hmax', ?_⟩
    simp only
    omega

/-- spans with a gap between them are in order and cannot be joined -/
theorem Gap.settled (h : Gap p q) : buffer.placeKey p ≤ buffer.placeKey q ∧ buffer.joins p q = false := by
  have hstop : p.stop ≤ p.offset + p.size := Nat.min_le_left _ _
  unfold Gap at h
  rw [buffer_placeKey_le_iff, joins, ← Bool.not_eq_true, ByteSpan.meets, beq_iff_eq]
  omega

end Joining

/-! ## Merging -/

/-- barriers whose spans fit, and of which those of one group have no byte in common; those of one buffer are of one
native object -/
structure Spanwise (len : Nat → Nat) (bs : List (Barrier .buffer)) : Prop where
  fits : ∀ b ∈ bs, ∀ p, b.part = some p → 0 < p.size ∧ p.offset + p.size ≤ len b.resource
  apart : bs.Pairwise fun a c => a.groupKey = c.groupKey → ∀ p q, a.part = some p → c.part = some q →
    ∀ i, ¬ (p.contains i = true ∧ q.contains i = true)
  native : ∀ a ∈ bs, ∀ c ∈ bs, a.resource = c.resource → a.native = c.native

/-- the byte is in one of the spans of the group -/
def BytesOf (bs : List (Barrier .buffer)) (key : List Nat) (i : Nat) : Prop :=
  ∃ a ∈ ofGroup key bs, ∃ p, a.part = some p ∧ p.contains i = true

namespace Spanwise

variable {len : Nat → Nat} {bs ms : List (Barrier .buffer)} {a b : Barrier .buffer}
  {runs : List (Barrier .buffer × ByteSpan)}

theorem fitting (h : Spanwise len bs) : ∀ b ∈ bs, b.Fitting (k := .buffer) len := h.fits

theorem partsApart (h : Spanwise len bs) (key : List Nat) :
    (ofGroup key bs).Pairwise (Barrier.PartsApart (k := .buffer) len) :=
  (h.apart.sublist List.filter_sublist).imp_of_mem fun {_ _} ha hc hac =>
    hac (groupKey_eq_of_mem_ofGroup ha hc)

/-- two barriers with one sort key are the same barrier -/
theorem eq_of_sortKey (h : Spanwise len bs) (ha : a ∈ bs) (hb : b ∈ bs) (hkey : a.sortKey = b.sortKey) : a = b := by
  obtain ⟨hgroup, hplace⟩ := Barrier.sortKey_eq_iff.1 hkey
  have hnative := h.native a ha b hb (groupKey_eq_iff.1 hgroup).1
  by_contra hne
  cases hp : a.part with
  | none =>
    cases hq : b.part with
    | none => exact hne (Barrier.eq_of_groupKey hgroup hnative (hp.trans hq.symm))
    | some q =>
      rw [Barrier.placeKey, hp, Barrier.placeKey_some hq] at hplace
      cases hplace
  | some p =>
    cases hq : b.part with
    | none =>
      rw [Barrier.placeKey_some hp, Barrier.placeKey, hq] at hplace
      cases hplace
    | some q =>
      -- both spans have the byte they begin at
      rw [Barrier.placeKey_some hp, Barrier.placeKey_some hq] at hplace
      have hoffset : p.offset = q.offset := by simpa [placeKey] using hplace
      let R : Barrier .buffer → Barrier .buffer → Prop := fun a c => a.groupKey = c.groupKey →
        ∀ p q, a.part = some p → c.part = some q → ∀ i, ¬ (p.contains i = true ∧ q.contains i = true)
      have : Std.Symm R := ⟨fun _ _ hac hkey p q hp hq i hi => hac hkey.symm q p hq hp i hi.symm⟩
      have hapart : R a b := List.Pairwise.forall (R := R) h.apart ha hb hne
      have hpos := (h.fits a ha p hp).1
      have hpos' := (h.fits b hb q hq).1
      exact hapart hgroup p q hp hq p.offset ⟨ByteSpan.contains_iff.2 (by omega), ByteSpan.contains_iff.2 (by omega)⟩

/-- the spans of a group, sorted, come one after the other -/
theorem before (hlen : ∀ n, len n ≤ maxWord64) (h : Spanwise len bs) (key : List Nat) :
    (partsOf (ofGroup key (sortOn Barrier.sortKey bs))).Pairwise fun x y => SpanBefore x.2 y.2 := by
  have hsorted := pairwise_sorted_group Barrier.PartsApart.symm (h.partsApart key)
  refine pairwise_partsOf hsorted fun a ha c hc hac p q hp hq => ?_
  have hmem : ∀ b ∈ ofGroup key (sortOn Barrier.sortKey bs), b ∈ bs := fun b hb => mem_sortOn.1 (mem_ofGroup.1 hb).1
  obtain ⟨hplace, hapart⟩ := hac
  rw [Barrier.placeKey_some hp, Barrier.placeKey_some hq, cons_le_cons_iff, buffer_placeKey_le_iff] at hplace
  obtain ⟨hpos, hend⟩ := h.fits c (hmem c hc) q hq
  have hmax := hlen c.resource
  refine ⟨by omega, ?_⟩
  by_contra hlt
  exact hapart p q hp hq q.offset ⟨ByteSpan.contains_iff.2 (by omega), ByteSpan.contains_iff.2 (by omega)⟩

/-- the spans a group is joined to have gaps between them -/
theorem gap_runs (hlen : ∀ n, len n ≤ maxWord64) (h : Spanwise len bs) (hr : Runs (k := .buffer) len bs ms b runs) :
    runs.Pairwise fun x y => Gap x.2 y.2 :=
  separating_spans.neighbourRuns hr.joined (h.before hlen _)

/-- **The spans a group is joined to are the maximal intervals of its bytes.** -/
theorem mem_runs_iff (hlen : ∀ n, len n ≤ maxWord64) (h : Spanwise len bs) (hr : Runs (k := .buffer) len bs ms b runs)
    (r : ByteSpan) : r ∈ runs.map Prod.snd ↔ r.MaximalIn (BytesOf bs b.groupKey) := by
  refine mem_iff_maximalIn (List.pairwise_map.2 (h.gap_runs hlen hr)) (List.forall_mem_map.2 fun x hx => ?_) fun i => ?_
  · exact (hr.coalesced.inside x hx).1
  · refine (hr.exists_holds_iff i).symm.trans ⟨?_, ?_⟩
    · rintro ⟨x, hx, hi⟩
      exact ⟨x.2, List.mem_map_of_mem hx, hi⟩
    · rintro ⟨p, hp, hi⟩
      obtain ⟨x, hx, rfl⟩ := List.mem_map.1 hp
      exact ⟨x, hx, hi⟩

end Spanwise

/-- a barrier of the group is of the whole buffer, or the spans of the group are all of it -/
def WholeGroup (len : Nat → Nat) (bs : List (Barrier .buffer)) (b : Barrier .buffer) : Prop :=
  (∃ a ∈ ofGroup b.groupKey bs, a.part = none) ∨ ∀ i < len b.resource, BytesOf bs b.groupKey i

namespace Spanwise

variable {len : Nat → Nat} {bs ms : List (Barrier .buffer)} {a b : Barrier .buffer}
  {runs : List (Barrier .buffer × ByteSpan)}

/-- a barrier of the group that is given another part is the given one with this part -/
theorem with_part (h : Spanwise len bs) (hb : b ∈ bs) (ha : a ∈ ofGroup b.groupKey bs) (part : Option ByteSpan) :
    { a with part := part } = { b with part := part } := by
  obtain ⟨hmem, hkey⟩ := mem_ofGroup.1 ha
  exact Barrier.eq_of_groupKey hkey (h.native a hmem b hb (groupKey_eq_iff.1 hkey).1) rfl

theorem lt_of_bytesOf (h : Spanwise len bs) {i : Nat} (hi : BytesOf bs b.groupKey i) : i < len b.resource := by
  obtain ⟨a, ha, p, hp, hi⟩ := hi
  obtain ⟨hmem, hkey⟩ := mem_ofGroup.1 ha
  obtain ⟨-, hend⟩ := h.fits a hmem p hp
  rw [← (groupKey_eq_iff.1 hkey).1]
  exact (ByteSpan.contains_iff.1 hi).2.trans_le hend

/-- if the spans of a group are all of the buffer, all of it is a maximal interval -/
theorem maximalIn_of_all (h : Spanwise len bs) (hb : b ∈ bs) (hpart : b.part ≠ none)
    (hall : ∀ i < len b.resource, BytesOf bs b.groupKey i) :
    (⟨0, len b.resource⟩ : ByteSpan).MaximalIn (BytesOf bs b.groupKey) where
  nonempty := by
    obtain ⟨p, hp⟩ := Option.ne_none_iff_exists'.1 hpart
    obtain ⟨hpos, hend⟩ := h.fits b hb p hp
    simp only
    omega
  within := fun i hi => hall i (by simpa using (ByteSpan.contains_iff.1 hi).2)
  before := fun i hi => absurd hi (Nat.succ_ne_zero i)
  after := fun hi => by simpa using h.lt_of_bytesOf hi

/-- a group that is moved as a whole is merged to one barrier -/
theorem left_of_whole (hlen : ∀ n, len n ≤ maxWord64) (h : Spanwise len bs)
    (hms : mergeBarriers (k := .buffer) (fun n => .ok (len n)) bs = .ok ms) (hb : b ∈ bs) (hw : WholeGroup len bs b) :
    ofGroup b.groupKey ms = [{ b with part := none }] := by
  by_cases hnone : ∃ a ∈ ofGroup b.groupKey bs, a.part = none
  · obtain ⟨ms', hms', hcovering⟩ := exists_covering (k := .buffer) hlen h.fitting
    obtain rfl : ms = ms' := Except.ok.inj (hms.symm.trans hms')
    obtain ⟨w, hmem, hpart, hleft⟩ := hcovering.whole _ hnone
    rw [hleft, ← h.with_part hb hmem none, ← hpart]
  · obtain ⟨runs, hr⟩ := exists_runs (k := .buffer) hlen h.fitting hms (c := b) fun a ha hpart => hnone ⟨a, ha, hpart⟩
    have hall := hw.resolve_left hnone
    -- all of the buffer is a maximal interval, and no other span has any of its bytes
    have hmaximal := h.maximalIn_of_all hb (fun hpart => hnone ⟨b, mem_ofGroup.2 ⟨hb, rfl⟩, hpart⟩) hall
    obtain ⟨x, hx, hspan⟩ := List.mem_map.1 ((h.mem_runs_iff hlen hr _).2 hmaximal)
    have hcovers : buffer.covers (len b.resource) x.2 = true := by
      rw [hspan]
      simp [covers, ByteSpan.covers]
    have hone := eq_singleton_of_covers hr.coalesced.inside (hr.once (h.partsApart _)) hx hcovers
    rw [hr.left, hone, List.map_singleton, Barrier.spanning, if_pos hcovers, h.with_part hb (hr.mem hx)]

/-- any other group is merged to a barrier for each maximal interval -/
theorem left_of_parts (hlen : ∀ n, len n ≤ maxWord64) (h : Spanwise len bs)
    (hms : mergeBarriers (k := .buffer) (fun n => .ok (len n)) bs = .ok ms) (hb : b ∈ bs) (hw : ¬ WholeGroup len bs b) :
    ∃ spans : List ByteSpan, ofGroup b.groupKey ms = spans.map (fun p => { b with part := some p }) ∧
      spans.Pairwise (fun p q => p.offset < q.offset) ∧ ∀ r, r ∈ spans ↔ r.MaximalIn (BytesOf bs b.groupKey) := by
  obtain ⟨runs, hr⟩ := exists_runs (k := .buffer) hlen h.fitting hms (c := b) fun a ha hpart => hw (Or.inl ⟨a, ha, hpart⟩)
  refine ⟨runs.map Prod.snd, ?_, List.pairwise_map.2 ((h.gap_runs hlen hr).imp fun {x y} hxy => ?_), h.mem_runs_iff hlen hr⟩
  · rw [hr.left, List.map_map]
    refine List.map_congr_left fun x hx => ?_
    have hcovers : ¬ buffer.covers (len b.resource) x.2 = true := fun hc => hw (Or.inr fun i hi => by
      obtain ⟨a, ha, p, hp, hi⟩ := (hr.exists_holds_iff i).1 ⟨x, hx, holds_of_covers hc hi⟩
      exact ⟨a, ha, p, hp, hi⟩)
    rw [Barrier.spanning, if_neg hcovers, h.with_part hb (hr.mem hx)]
    rfl
  · unfold Gap at hxy
    omega

end Spanwise

/-- **Merging spans gives maximal intervals.** It goes well and does not depend on the order of the barriers, and merging
what it gives changes nothing. The groups are those of the given barriers, in ascending order of their keys. A group with
a barrier of the whole buffer, or whose spans are all of the buffer, becomes one barrier of the whole buffer; any other
becomes one barrier for each maximal interval of its bytes, in ascending order. -/
theorem mergeBarriers_spans {len : Nat → Nat} {bs : List (Barrier .buffer)} (hlen : ∀ n, len n ≤ maxWord64)
    (h : Spanwise len bs) :
    ∃ ms, (∀ cs, bs.Perm cs → mergeBarriers (k := .buffer) (fun n => .ok (len n)) cs = .ok ms) ∧
      mergeBarriers (k := .buffer) (fun n => .ok (len n)) ms = .ok ms ∧ Grouped ms ∧
      (∀ m ∈ ms, ∃ b ∈ bs, m.groupKey = b.groupKey) ∧
      ∀ b ∈ bs, (WholeGroup len bs b → ofGroup b.groupKey ms = [{ b with part := none }]) ∧
        (¬ WholeGroup len bs b → ∃ spans : List ByteSpan,
          ofGroup b.groupKey ms = spans.map (fun p => { b with part := some p }) ∧
            spans.Pairwise (fun p q => p.offset < q.offset) ∧
            ∀ r, r ∈ spans ↔ r.MaximalIn (BytesOf bs b.groupKey)) := by
  obtain ⟨ms, hms, hcovering, hgrouped, hperm, hfixed, -⟩ := mergeBarriers_settles (k := .buffer) hlen h.fitting
    (fun a ha c hc => h.eq_of_sortKey ha hc) h.partsApart fun c _ _ _ hr => (h.gap_runs hlen hr).imp Gap.settled
  refine ⟨ms, hperm, hfixed, hgrouped, fun m hm => ?_, fun b hb =>
    ⟨h.left_of_whole hlen hms hb, h.left_of_parts hlen hms hb⟩⟩
  obtain ⟨b, hb, p, rfl⟩ := hcovering.origin m hm
  exact ⟨b, hb, rfl⟩

/-- spans that end at the largest word, spans that are all of a buffer, and a buffer that is moved as a whole besides -/
theorem mergeBarriers_spans_largest :
    let len : Nat → Nat := fun _ => maxWord64
    let copyTo : Nat → Option ByteSpan → Barrier .buffer := fun n part => ⟨n, n, .undefined, .copyDest, (), part⟩
    let bs := [copyTo 0 (some ⟨maxWord64 - 10, 10⟩), copyTo 1 (some ⟨8, maxWord64 - 8⟩), copyTo 2 (some ⟨4, 4⟩),
      copyTo 0 (some ⟨0, 4⟩), copyTo 1 (some ⟨0, 8⟩), copyTo 0 (some ⟨maxWord64 - 20, 10⟩), copyTo 2 none]
    let spans : List ByteSpan := [⟨0, 4⟩, ⟨maxWord64 - 20, 20⟩]
    let ms := spans.map (fun p => copyTo 0 (some p)) ++ [copyTo 1 none, copyTo 2 none]
    mergeBarriers (k := .buffer) (fun n => .ok (len n)) bs.reverse = .ok ms ∧
      mergeBarriers (k := .buffer) (fun n => .ok (len n)) ms = .ok ms ∧
      ∀ r, r ∈ spans ↔ r.MaximalIn (BytesOf bs (copyTo 0 none).groupKey) := by
  intro len copyTo bs spans ms
  have hdisjoint : bs.Pairwise fun a c => a.groupKey = c.groupKey →
      ∀ p ∈ a.part, ∀ q ∈ c.part, p.offset + p.size ≤ q.offset ∨ q.offset + q.size ≤ p.offset := by decide
  have hspans : Spanwise len bs :=
    { fits := by simp +decide [bs, copyTo, len]
      apart := hdisjoint.imp fun {a c} hac hkey p q hp hq i hi => by
        have hle := hac hkey p hp q hq
        rw [ByteSpan.contains_iff, ByteSpan.contains_iff] at hi
        omega
      native := by decide }
  have hpart : ¬ WholeGroup len bs (copyTo 0 (some ⟨0, 4⟩)) := by
    have hranged : ∀ a ∈ ofGroup (copyTo 0 none).groupKey bs, a.part ≠ none := by decide
    have hfourth : ∀ a ∈ ofGroup (copyTo 0 none).groupKey bs, ∀ p ∈ a.part, p.contains 4 = false := by decide
    rintro (⟨a, ha, hnone⟩ | hall)
    · exact hranged a ha hnone
    · obtain ⟨a, ha, p, hp, hi⟩ := hall 4 (by decide)
      rw [hfourth a ha p hp] at hi
      cases hi
  obtain ⟨ms', hperm, hfixed, -, -, hleft⟩ := mergeBarriers_spans (fun _ => le_rfl) hspans
  have hmerge : mergeBarriers (k := .buffer) (fun n => .ok (len n)) bs = .ok ms := by decide +kernel
  obtain rfl : ms = ms' := Except.ok.inj (hmerge.symm.trans (hperm bs (List.Perm.refl bs)))
  obtain ⟨spans', hspans', -, hmaximal⟩ := (hleft (copyTo 0 (some ⟨0, 4⟩)) (by decide)).2 hpart
  have hsame : spans' = spans := by
    have hgroup : ofGroup (copyTo 0 none).groupKey ms = spans.map fun p => copyTo 0 (some p) := by decide
    exact List.map_injective_iff.2 (fun p q h => by simpa [copyTo] using h) (hspans'.symm.trans hgroup)
  exact ⟨hperm _ bs.reverse_perm.symm, hfixed, hsame ▸ hmaximal⟩

end FrameGraph
