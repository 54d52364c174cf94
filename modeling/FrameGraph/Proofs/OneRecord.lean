/-
Native objects that are used through records.

Passes use records, and two records may be of one native object. `onlyOn` are the barriers on an object, whatever record
they were made for. If no address of the object is used through two records, the object moves as its records do.

- `Through`: the barriers of a pass on an object are, at each address, those on one record. They move the object where
  they move the records (`Through.foldl_onlyOn`), and wider ones are timely only if they are (`Through.timely`).
- `Granted.timely`: if this is the same record in each pass, no barrier on the object is stale.
- `Granted.merged_states`: if it is one record in each pass, merging makes no barrier timely that is stale without it, and
  keeps the states of the object after each pass.
- `Registry.OneRecord`: some passes use no address of the object through two records. Then their barriers are on the
  object by those records (`Registry.Agree.exists_through`).
-/
import FrameGraph.Proofs.Staleness

namespace FrameGraph

open ResourceKind

variable {k : ResourceKind}

/-! ## The barriers of one pass on one object -/

section Pass

variable {L L' : Layout} {old new s : States} {n native : Nat} {records : Nat → Nat} {bs ms : List (Barrier k)}

/-- an address ends in the state that the barriers covering it agree on, and is left alone if there is none -/
theorem foldl_apply_eq {v : Option ResourceState} {i : Nat}
    (hv : ∀ b ∈ bs, b.resource = n → b.covers L i = true → some b.after = v) :
    bs.foldl (Barrier.apply L) s n i = if ∃ b ∈ bs, b.resource = n ∧ b.covers L i = true then v else s n i := by
  induction bs generalizing s with
  | nil => simp
  | cons b bs ih =>
    obtain ⟨hb, hbs⟩ := List.forall_mem_cons.1 hv
    rw [List.foldl_cons, ih hbs]
    by_cases hlater : ∃ c ∈ bs, c.resource = n ∧ c.covers L i = true
    · obtain ⟨c, hc, hci⟩ := hlater
      rw [if_pos ⟨c, hc, hci⟩, if_pos ⟨c, List.mem_cons_of_mem b hc, hci⟩]
    · rw [if_neg hlater, Barrier.apply]
      by_cases hbi : b.resource = n ∧ b.covers L i = true
      · rw [if_pos hbi, if_pos ⟨b, List.mem_cons_self, hbi⟩, hb hbi.1 hbi.2]
      · rw [if_neg hbi, if_neg]
        rintro ⟨c, hc, hci⟩
        rcases List.mem_cons.1 hc with rfl | hc
        · exact hbi hci
        · exact hlater ⟨c, hc, hci⟩

/-- the barriers on a native object, as barriers on the object -/
def onlyOn (native : Nat) (bs : List (Barrier k)) : List (Barrier k) :=
  (bs.filter fun b => b.native = native).map Barrier.onNative

theorem mem_onlyOn {b : Barrier k} : b ∈ onlyOn native bs ↔ ∃ c ∈ bs, c.native = native ∧ c.onNative = b := by
  simp [onlyOn, and_assoc]

/-- the barriers on the object are as large as the object and are, at each address, those on one record -/
structure Through (L L' : Layout) (records : Nat → Nat) (native : Nat) (bs : List (Barrier k)) : Prop where
  layout : ∀ b ∈ bs, b.native = native → L k b.resource = L' k native
  record : ∀ b ∈ bs, ∀ i, b.covers L i = true → (b.native = native ↔ b.resource = records i)

theorem Through.covers (h : Through L L' records native bs) {b : Barrier k} (hb : b ∈ bs) (hn : b.native = native)
    (i : Nat) : b.onNative.covers L' i = b.covers L i := by
  rw [Barrier.covers, Barrier.covers, Barrier.onNative_resource, hn, ← h.layout b hb hn]
  rfl

/-- an exact difference moves the object where it moves the records -/
theorem Through.foldl_onlyOn (h : Through L L' records native bs) (hm : Moves L old new bs) (i : Nat) :
    (onlyOn native bs).foldl (Barrier.apply L') s native i =
      if old (records i) i = new (records i) i then s native i else new (records i) i := by
  have hmem : ∀ b ∈ onlyOn native bs, b.covers L' i = true →
      old (records i) i ≠ new (records i) i ∧ some b.after = new (records i) i := by
    intro b hb hi
    obtain ⟨c, hc, hn, rfl⟩ := mem_onlyOn.1 hb
    have hci : c.covers L i = true := (h.covers hc hn i).symm.trans hi
    obtain ⟨h1, h2⟩ := hm.of_mem hc hci
    rw [(h.record c hc i hci).1 hn] at h1 h2
    refine ⟨fun e => hm.changing c hc ?_, h2.symm⟩
    rw [h1, h2] at e
    exact Option.some.inj e
  rw [foldl_apply_eq fun b hb _ hi => (hmem b hb hi).2]
  by_cases he : old (records i) i = new (records i) i
  · rw [if_pos he, if_neg]
    rintro ⟨b, hb, -, hi⟩
    exact (hmem b hb hi).1 he
  · rw [if_neg he, if_pos]
    obtain ⟨c, hc, hn, hi⟩ := hm.exists_covers he
    have hnative := (h.record c hc i hi).2 hn
    exact ⟨c.onNative, mem_onlyOn.2 ⟨c, hc, hnative, rfl⟩, hnative, (h.covers hc hnative i).trans hi⟩

/-- an exact difference covers no address of the object twice -/
theorem Through.once (h : Through L L' records native bs) (hm : Moves L old new bs) (m i : Nat) :
    (onlyOn native bs).countP (fun b => decide (b.resource = m) && b.covers L' i) ≤ 1 := by
  refine le_trans ?_ (hm.once (records i) i)
  rw [onlyOn, List.countP_map, List.countP_filter]
  refine List.countP_mono_left fun b hb hq => ?_
  simp only [Function.comp, Bool.and_eq_true, decide_eq_true_eq] at hq ⊢
  obtain ⟨⟨-, hi⟩, hn⟩ := hq
  have hbi : b.covers L i = true := (h.covers hb hn i).symm.trans hi
  exact ⟨(h.record b hb i hbi).1 hn, hbi⟩

/-- if the object is as the records are, no barrier is stale -/
theorem Through.timely_of_moves (h : Through L L' records native bs) (hm : Moves L old new bs)
    (hs : ∀ i, s native i = old (records i) i) : Timely L' s (onlyOn native bs) := by
  rw [timely_iff_of_once (h.once hm)]
  intro b hb
  obtain ⟨c, hc, hn, rfl⟩ := mem_onlyOn.1 hb
  refine Or.inl fun i hi => ?_
  have hci : c.covers L i = true := (h.covers hc hn i).symm.trans hi
  rw [Barrier.onNative_resource, hn, hs, ← (h.record c hc i hci).1 hn]
  exact (hm.of_mem hc hci).1

/-- **Barriers that are within timely ones are timely.** Both cover no address twice, so it does not matter in which order
they come. -/
theorem Through.timely (hb : Through L L' records native bs) (hm : Through L L' records native ms)
    (hbs : Moves L old new bs) (hms : Moves L old new ms) (hw : ∀ c ∈ bs, ∃ m ∈ ms, c.Within L m)
    (ht : Timely L' s (onlyOn native ms)) : Timely L' s (onlyOn native bs) := by
  rw [timely_iff_of_once (hm.once hms)] at ht
  rw [timely_iff_of_once (hb.once hbs)]
  intro b hbm
  obtain ⟨c, hc, hn, rfl⟩ := mem_onlyOn.1 hbm
  by_cases hempty : ∀ i, c.onNative.covers L' i = false
  · exact Or.inl fun i hi => absurd hi (by rw [hempty i]; exact Bool.false_ne_true)
  · obtain ⟨i, hi⟩ := not_forall.1 hempty
    have hci : c.covers L i = true := (hb.covers hc hn i).symm.trans (Bool.eq_true_of_not_eq_false hi)
    obtain ⟨m, hmem, hkey, hcov⟩ := hw c hc
    obtain ⟨e1, e2, e3⟩ := eq_of_groupKey_eq hkey
    have hmn : m.native = native := (hm.record m hmem i (hcov i hci)).2 (e1.trans ((hb.record c hc i hci).1 hn))
    have hcovers : ∀ i, c.onNative.covers L' i = true → m.onNative.covers L' i = true := by
      intro i hi
      rw [hm.covers hmem hmn]
      exact hcov i ((hb.covers hc hn i).symm.trans hi)
    have hsame : m.onNative.resource = c.onNative.resource := hmn.trans hn.symm
    refine (ht _ (mem_onlyOn.2 ⟨m, hmem, hmn, rfl⟩)).imp (fun hstart i hi => ?_) fun hdone i hi => ?_
    · exact (hsame ▸ hstart i (hcovers i hi)).trans (congrArg some e2)
    · exact (hsame ▸ hdone i (hcovers i hi)).trans (congrArg some e3)

end Pass

/-! ## The barriers of all passes on one object -/

section Passes

variable {L L' : Layout} {w : World} {s s' : States} {passes : List Pass} {raw merged batches : Batches} {native : Nat}

/-- the barriers of all passes on a native object, as barriers on the object -/
def Batches.onlyOn (k : ResourceKind) (native : Nat) (batches : Batches) : List (Barrier k) :=
  batches.flatMap fun x => FrameGraph.onlyOn native (x.2.get k)

theorem Batches.onObject_ofKind (batches : Batches) :
    (onObject native (batches.ofKind k)).map (fun x => x.2.onNative) = batches.onlyOn k native := by
  simp [onObject, ofKind, onlyOn, FrameGraph.onlyOn, List.filter_flatMap, List.map_flatMap, List.filter_map,
    Function.comp_def]

theorem Batches.statesAfter_eq (L : Layout) (s : States) (batches : Batches) :
    statesAfter L s (batches.ofKind k) native = (batches.onlyOn k native).foldl (Barrier.apply L) s native := by
  rw [← statesAfter_onObject, ← onObject_ofKind, statesAfter, List.foldl_map]

/-- an object that all passes use through the same records is as the records are, and no barrier is stale -/
theorem Granted.timely {records : Nat → Nat} (h : Granted L passes w batches)
    (hone : ∀ x ∈ batches, Through L L' records native (x.2.get k)) (hs : ∀ i, s native i = w k (records i) i) :
    Timely L' s (batches.onlyOn k native) := by
  induction batches generalizing w s with
  | nil => trivial
  | cons x rest ih =>
    obtain ⟨hx, hrest⟩ := List.forall_mem_cons.1 hone
    obtain ⟨hm, hg⟩ := h
    rw [Batches.onlyOn, List.flatMap_cons, timely_append]
    refine ⟨hx.timely_of_moves (hm k) hs, ih hg hrest fun i => ?_⟩
    rw [hx.foldl_onlyOn (hm k), hs]
    split
    · assumption
    · rfl

/-- **Merging keeps the states of an object that each pass uses through the same records,** pass after pass, and makes
barriers stale, but never timely. -/
theorem Granted.merged_states (hraw : Granted L passes w raw) (hmerged : Granted L passes w merged)
    (hw : List.Forall₂ (fun x y => x.1 = y.1 ∧ Batch.Within L x.2 y.2) raw merged)
    (hone : ∀ i, ∃ records, ∀ x, x ∈ raw ∨ x ∈ merged → x.1 = i → Through L L' records native (x.2.get k))
    (hs : s native = s' native) :
    (Timely L' s' (merged.onlyOn k native) → Timely L' s (raw.onlyOn k native)) ∧
      ∀ j, (Batches.onlyOn k native (raw.take j)).foldl (Barrier.apply L') s native =
        (Batches.onlyOn k native (merged.take j)).foldl (Barrier.apply L') s' native := by
  induction hw generalizing w s s' with
  | nil => exact ⟨id, fun j => by rw [List.take_nil]; exact hs⟩
  | @cons x y raw merged hxy _ ih =>
    obtain ⟨i, batch⟩ := x
    obtain ⟨i', batch'⟩ := y
    obtain ⟨e, hwithin⟩ := hxy
    obtain rfl : i = i' := e
    obtain ⟨records, hrecords⟩ := hone i
    have hb := hrecords (i, batch) (Or.inl List.mem_cons_self) rfl
    have hb' := hrecords (i, batch') (Or.inr List.mem_cons_self) rfl
    have hstep : (onlyOn native (batch.get k)).foldl (Barrier.apply L') s native =
        (onlyOn native (batch'.get k)).foldl (Barrier.apply L') s' native := by
      funext a
      rw [hb.foldl_onlyOn (hraw.1 k), hb'.foldl_onlyOn (hmerged.1 k), hs]
    obtain ⟨htimely, hstates⟩ := ih hraw.2 hmerged.2
      (fun j => (hone j).imp fun _ hj x hx => hj x (hx.imp (List.mem_cons_of_mem _) (List.mem_cons_of_mem _))) hstep
    refine ⟨fun ht => ?_, fun j => ?_⟩
    · rw [Batches.onlyOn, List.flatMap_cons, timely_append] at ht ⊢
      refine ⟨?_, htimely ht.2⟩
      refine hb.timely hb' (hraw.1 k) (hmerged.1 k) (hwithin k) (ht.1.congr hs.symm fun b hbm => ?_)
      obtain ⟨c, -, hc, rfl⟩ := mem_onlyOn.1 hbm
      exact hc
    · cases j with
      | zero => exact hs
      | succ j =>
        rw [List.take_succ_cons, List.take_succ_cons, Batches.onlyOn, Batches.onlyOn, List.flatMap_cons,
          List.flatMap_cons, List.foldl_append, List.foldl_append]
        exact hstates j

end Passes

/-! ## Which records are used -/

/-- the passes use no address of the native object through two records -/
def Registry.OneRecord (g : Registry) (passes : List Pass) (k : ResourceKind) (native : Nat) : Prop :=
  ∀ m n i, (∃ p ∈ passes, (p.asks g.layout k m i).isSome) → (∃ p ∈ passes, (p.asks g.layout k n i).isSome) →
    ((g.get k)[m]?).bind Resource.native = some native → ((g.get k)[n]?).bind Resource.native = some native → m = n

/-- it is enough that the passes touch one record of the object -/
theorem Registry.oneRecord_of_touched {g : Registry} {passes : List Pass} {native : Nat}
    (h : ∀ p ∈ passes, ∀ q ∈ passes, ∀ m ∈ p.touched k, ∀ n ∈ q.touched k,
      ((g.get k)[m]?).bind Resource.native = some native → ((g.get k)[n]?).bind Resource.native = some native → m = n) :
    g.OneRecord passes k native := by
  have htouched : ∀ {p : Pass} {n i : Nat}, (p.asks g.layout k n i).isSome → n ∈ p.touched k := by
    intro p n i hasks
    refine Pass.mem_touched.2 fun hnil => ?_
    rw [Pass.asks, hnil] at hasks
    cases hl : g.layout k n <;> rw [hl] at hasks <;> cases hasks
  rintro m n i ⟨p, hp, hm⟩ ⟨q, hq, hn⟩
  exact h p hp q hq m (htouched hm) n (htouched hn)

/-- the passes ask for a state of each address the barriers cover -/
def AskedBy (L : Layout) (passes : List Pass) (bs : List (Barrier k)) : Prop :=
  ∀ b ∈ bs, ∀ i, b.covers L i = true → ∃ p ∈ passes, (p.asks L k b.resource i).isSome

/-- a pass asks for a state of each address that it changes -/
theorem World.asked_of_grant {L : Layout} {w : World} {passes : List Pass} {i n a : Nat}
    (h : w.grant L passes i k n a ≠ w k n a) : ∃ p ∈ passes[i]?.toList, (p.asks L k n a).isSome := by
  unfold World.grant at h
  cases hp : passes[i]? with
  | none =>
    rw [hp] at h
    exact absurd rfl h
  | some p =>
    rw [hp] at h
    refine ⟨p, List.mem_singleton_self p, ?_⟩
    rw [Option.isSome_iff_ne_none]
    intro hnone
    simp only [Pass.grant, hnone, Option.none_or] at h
    exact h rfl

/-- a barrier covers no address that its pass does not ask for -/
theorem Granted.asked {L : Layout} {w : World} {passes : List Pass} {batches : Batches} (h : Granted L passes w batches)
    {x : Nat × Batch} (hx : x ∈ batches) (k : ResourceKind) : AskedBy L passes[x.1]?.toList (x.2.get k) := by
  induction batches generalizing w with
  | nil => cases hx
  | cons y rest ih =>
    obtain ⟨hm, hg⟩ := h
    rcases List.mem_cons.1 hx with rfl | hx
    · intro b hb i hi
      obtain ⟨hold, hnew⟩ := (hm k).of_mem hb hi
      refine World.asked_of_grant (w := w) fun e => (hm k).changing b hb ?_
      rw [hnew, hold] at e
      exact (Option.some.inj e).symm
    · exact ih hg hx

/-- if some passes use each address of an object through one record, their barriers on the object are on that record -/
theorem Registry.Agree.exists_through {g : Registry} {passes : List Pass} {native n : Nat} (ha : g.Agree)
    (hone : g.OneRecord passes k native) (hn : ((g.get k)[n]?).bind Resource.native = some native) :
    ∃ records : Nat → Nat, (∀ i, ((g.get k)[records i]?).bind Resource.native = some native) ∧
      ∀ bs : List (Barrier k), (∀ b ∈ bs, b.Named g) → AskedBy g.layout passes bs →
        Through g.layout g.nativeLayout records native bs := by
  -- the record that the passes use at an address, if there is one
  have hex : ∀ i, ∃ m : Nat, ((g.get k)[m]?).bind Resource.native = some native ∧
      ∀ m' : Nat, (∃ p ∈ passes, (p.asks g.layout k m' i).isSome) →
        (((g.get k)[m']?).bind Resource.native = some native ↔ m' = m) := by
    intro i
    by_cases hm : ∃ m : Nat, (∃ p ∈ passes, (p.asks g.layout k m i).isSome) ∧
        ((g.get k)[m]?).bind Resource.native = some native
    · obtain ⟨m, hasked, hm⟩ := hm
      exact ⟨m, hm, fun m' hasked' => ⟨fun hm' => hone m' m i hasked' hasked hm' hm, fun e => e ▸ hm⟩⟩
    · refine ⟨n, hn, fun m' hasked' => ⟨fun hm' => absurd ⟨m', hasked', hm'⟩ hm, fun e => e ▸ hn⟩⟩
  choose records hrecords hunique using hex
  refine ⟨records, hrecords, fun bs hnamed hasked => ⟨fun b hb hbn => ?_, fun b hb i hi => ?_⟩⟩
  · have hbnative := hnamed b hb
    rw [Barrier.Named, hbn] at hbnative
    obtain ⟨r, hr, hrn⟩ := Option.bind_eq_some_iff.1 hbnative
    exact ha.layout_eq hr hrn
  · have hbnative : ((g.get k)[b.resource]?).bind Resource.native = some b.native := hnamed b hb
    rw [← hunique i b.resource (hasked b hb i hi), hbnative, Option.some.injEq]

namespace Batches.Exact

variable {g : Registry} {passes : List Pass} {indices : List Nat} {raw : Batches} {native : Nat}

/-- no barrier is on an object without a record -/
theorem onlyOn_eq_nil (hraw : raw.Exact g passes indices)
    (hn : ∀ n : Nat, ((g.get k)[n]?).bind Resource.native ≠ some native) : raw.onlyOn k native = [] := by
  refine List.flatMap_eq_nil_iff.2 fun x hx => List.map_eq_nil_iff.2 (List.filter_eq_nil_iff.2 fun b hb => ?_)
  rw [decide_eq_true_eq]
  intro e
  exact hn b.resource (e ▸ hraw.named x hx k b hb)

/-- if the passes use each address of each object through one record, no barrier is stale -/
theorem timely_of_oneRecord (hraw : raw.Exact g passes indices) (ha : g.Agree)
    (hone : ∀ native, g.OneRecord passes k native) :
    Timely g.nativeLayout (g.nativesInitially k) ((raw.ofKind k).map fun x => x.2.onNative) := by
  refine timely_onObject_iff.2 fun native => ?_
  rw [Batches.onObject_ofKind]
  by_cases hn : ∃ n : Nat, ((g.get k)[n]?).bind Resource.native = some native
  · obtain ⟨n, hn⟩ := hn
    obtain ⟨records, hrecords, hthrough⟩ := ha.exists_through (hone native) hn
    refine hraw.granted.timely (fun x hx => hthrough _ (hraw.named x hx k) fun b hb i hi => ?_) fun i => ?_
    · obtain ⟨p, hp, hasks⟩ := hraw.granted.asked hx k b hb i hi
      exact ⟨p, List.mem_of_getElem? (Option.mem_toList.1 hp), hasks⟩
    · obtain ⟨r, hr, hrn⟩ := Option.bind_eq_some_iff.1 (hrecords i)
      exact (congrFun (ha.initially_eq hr hrn) i).symm
  · rw [hraw.onlyOn_eq_nil fun n hnn => hn ⟨n, hnn⟩]
    trivial

end Batches.Exact

end FrameGraph
