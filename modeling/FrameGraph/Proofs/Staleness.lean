/-
Barriers that are not stale.

A barrier that does not start from the state of every address it covers is stale, unless it finds all of them in its
after-state already. Elimination faults on a stale barrier, or drops it.

- `Timely`: barriers one after another, none of them stale.
- `timely_iff_of_once`: barriers that cover no address twice do not get in each other's way, whatever their order.
- `timely_onObject_iff`: it is enough to look at each native object by itself.
- `eliminate_outcome`: elimination does not fault if stale barriers are dropped, or if none is stale.
- `Sieved.timely`, `Sieved.statesAfter_eq`: if it drops no stale barrier of an object, the barriers left take the object
  where all of them would.
-/
import FrameGraph.Proofs.SharedFrames

namespace FrameGraph

open ResourceKind

variable {k : ResourceKind} {L : Layout} {s s' : States}

/-! ## Timely barriers -/

/-- the barrier is not stale: it starts from the state of every address it covers, or finds all in its after-state -/
def Barrier.Fits (L : Layout) (s : States) (b : Barrier k) : Prop := b.Starts L s ∨ b.Done L s

/-- barriers one after another, none of them stale -/
def Timely (L : Layout) : States → List (Barrier k) → Prop
  | _, [] => True
  | s, b :: bs => b.Fits L s ∧ Timely L (b.apply L s) bs

theorem Barrier.Fits.congr {b : Barrier k} (h : b.Fits L s) (hs : s b.resource = s' b.resource) : b.Fits L s' := by
  refine h.imp (fun h i hi => ?_) fun h i hi => ?_
  · rw [← hs, h i hi]
  · rw [← hs, h i hi]

theorem timely_append {bs cs : List (Barrier k)} :
    Timely L s (bs ++ cs) ↔ Timely L s bs ∧ Timely L (bs.foldl (Barrier.apply L) s) cs := by
  induction bs generalizing s with
  | nil => simp [Timely]
  | cons b bs ih => simp only [List.cons_append, Timely, ih, List.foldl_cons, and_assoc]

/-- barriers on one object go by the states of that object only -/
theorem Timely.congr {n : Nat} {bs : List (Barrier k)} (h : Timely L s bs) (hs : s n = s' n)
    (hb : ∀ b ∈ bs, b.resource = n) : Timely L s' bs := by
  induction bs generalizing s s' with
  | nil => trivial
  | cons b bs ih =>
    obtain ⟨hn, hbs⟩ := List.forall_mem_cons.1 hb
    exact ⟨h.1.congr (hn.symm ▸ hs), ih h.2 (b.apply_congr hs) hbs⟩

/-- **Barriers that cover no address twice are timely if and only if each of them is,** before any of the others. -/
theorem timely_iff_of_once {bs : List (Barrier k)}
    (honce : ∀ n i, bs.countP (fun b => decide (b.resource = n) && b.covers L i) ≤ 1) :
    Timely L s bs ↔ ∀ b ∈ bs, b.Fits L s := by
  induction bs generalizing s with
  | nil => simp [Timely]
  | cons b bs ih =>
    have htail : ∀ n i, bs.countP (fun c => decide (c.resource = n) && c.covers L i) ≤ 1 := by
      intro n i
      exact (List.sublist_cons_self b bs).countP_le.trans (honce n i)
    -- the first barrier does not move what another one covers
    have hfree : ∀ c ∈ bs, ∀ i, c.covers L i = true → b.apply L s c.resource i = s c.resource i := by
      intro c hc i hi
      refine if_neg fun hb => ?_
      have htwo := honce c.resource i
      rw [List.countP_cons_of_pos (by simpa using hb)] at htwo
      have hpos : 0 < bs.countP fun d => decide (d.resource = c.resource) && d.covers L i :=
        List.countP_pos_iff.2 ⟨c, hc, by simpa using hi⟩
      omega
    have hsame : ∀ c ∈ bs, c.Fits L (b.apply L s) ↔ c.Fits L s := by
      intro c hc
      refine or_congr (forall_congr' fun i => ?_) (forall_congr' fun i => ?_)
      · exact forall_congr' fun hi => by rw [hfree c hc i hi]
      · exact forall_congr' fun hi => by rw [hfree c hc i hi]
    rw [Timely, ih htail, List.forall_mem_cons]
    refine and_congr_right fun _ => forall_congr' fun c => ?_
    exact forall_congr' fun hc => hsame c hc

/-! ## Object by object -/

theorem resource_of_mem_onObject {native : Nat} {xs : List (Nat × Barrier k)} :
    ∀ b ∈ (onObject native xs).map fun x => x.2.onNative, b.resource = native := by
  intro b hb
  obtain ⟨x, hx, rfl⟩ := List.mem_map.1 hb
  exact of_decide_eq_true (List.mem_filter.1 hx).2

/-- after the first barrier, the others on an object are timely -/
theorem Timely.onObject_tail {native : Nat} {x : Nat × Barrier k} {xs : List (Nat × Barrier k)}
    (h : Timely L s ((onObject native (x :: xs)).map fun x => x.2.onNative)) :
    Timely L (x.2.onNative.apply L s) ((onObject native xs).map fun x => x.2.onNative) := by
  by_cases hn : x.2.native = native
  · subst hn
    rw [onObject_cons_self] at h
    exact h.2
  · rw [onObject_cons_of_ne hn] at h
    exact h.congr (Barrier.apply_of_ne hn).symm resource_of_mem_onObject

/-- **Barriers are timely if and only if those on each native object are.** -/
theorem timely_onObject_iff {xs : List (Nat × Barrier k)} :
    Timely L s (xs.map fun x => x.2.onNative) ↔
      ∀ native, Timely L s ((onObject native xs).map fun x => x.2.onNative) := by
  induction xs generalizing s with
  | nil => simp [Timely, onObject]
  | cons x xs ih =>
    rw [List.map_cons, Timely, @ih (x.2.onNative.apply L s)]
    constructor
    · rintro ⟨hx, hxs⟩ native
      by_cases hn : x.2.native = native
      · subst hn
        rw [onObject_cons_self]
        exact ⟨hx, hxs _⟩
      · rw [onObject_cons_of_ne hn]
        exact (hxs native).congr (Barrier.apply_of_ne hn) resource_of_mem_onObject
    · intro h
      have hself := h x.2.native
      rw [onObject_cons_self] at hself
      exact ⟨hself.1, fun native => (h native).onObject_tail⟩

namespace Sieved

variable {full kept stale : List (Nat × Barrier k)}

/-- barriers of which none is stale are timely -/
theorem timely (h : Sieved L s full kept []) : Timely L s (full.map fun x => x.2.onNative) := by
  generalize hstale : ([] : List (Nat × Barrier k)) = stale at h
  induction h with
  | nil => trivial
  | keep hx _ ih => exact ⟨Or.inl hx, ih hstale⟩
  | redundant _ hd _ ih => exact ⟨Or.inr hd, (Barrier.apply_of_done hd).symm ▸ ih hstale⟩
  | stale _ _ _ _ => cases hstale

/-- **Where the barriers on an object are timely, the ones left take it where all of them would.** -/
theorem statesAfter_eq {native : Nat} (h : Sieved L s full kept stale)
    (ht : Timely L s ((onObject native full).map fun x => x.2.onNative)) (hs : s' native = s native) :
    statesAfter L s' kept native = statesAfter L s full native := by
  induction h generalizing s' with
  | nil => exact hs
  | keep _ _ ih => exact ih ht.onObject_tail (Barrier.apply_congr _ hs)
  | @redundant s x full kept stale _ hd _ ih =>
    have htail := ht.onObject_tail
    have hcons : statesAfter L s (x :: full) = statesAfter L s full := by
      rw [statesAfter, List.foldl_cons, Barrier.apply_of_done hd, statesAfter]
    rw [Barrier.apply_of_done hd] at htail
    rw [hcons, ih htail hs]
  | @stale s x full kept stale hstarts hdone _ ih =>
    have hn : x.2.native ≠ native := by
      rintro rfl
      rw [onObject_cons_self] at ht
      exact ht.1.elim hstarts hdone
    exact ih ht.onObject_tail (hs.trans (Barrier.apply_of_ne hn).symm)

end Sieved

/-! ## Elimination -/

namespace Natives

variable {g : Registry} {n : Natives k} {policy : StalePolicy} {pass : String}

/-- each barrier finds a valid tracker for its native object -/
def Tracks (g : Registry) (n : Natives k) : Prop := ∀ b : Barrier k, b.Named g → ∃ t, n.find g b = .ok t ∧ t.Valid

theorem tracks_nil (g : Registry) : Tracks g ([] : Natives k) := by
  intro b hb
  obtain ⟨r, hr, -⟩ := Option.bind_eq_some_iff.1 hb
  refine ⟨.uniform r.bounds r.initial, ?_, Tracker.valid_uniform (k.measured_bounds r.descriptor) _⟩
  simp only [find, List.lookup_nil, hr]

/-- a barrier that is not stale is not judged so -/
theorem Holds.judge_ne_stale {b : Barrier k} {t : Tracker k} (h : n.Holds g s) (hb : b.Named g) (hf : n.find g b = .ok t)
    (hfits : b.onNative.Fits g.nativeLayout s) : judge (t.states b.part) b.before b.after ≠ .stale := by
  obtain ⟨t', hf', hv, hl, hst⟩ := h b hb
  obtain rfl : t = t' := Except.ok.inj (hf.symm.trans hf')
  -- all states listed are the one the barrier finds everywhere
  have hlisted : ∀ {v : ResourceState}, (∀ i, b.onNative.covers g.nativeLayout i = true → s b.native i = some v) →
      ∀ w ∈ t.states b.part, w = v := by
    intro v hall
    refine (Tracker.forall_mem_states_iff hv).2 fun i hi => ?_
    rw [hst]
    refine hall i ?_
    rw [Barrier.covers, Barrier.onNative_resource, hl]
    exact hi
  rcases judge_cases (t.states b.part) b.before b.after with ⟨e, -⟩ | ⟨e, -⟩ | ⟨-, hbefore, hafter⟩
  · rw [e]
    exact Verdict.noConfusion
  · rw [e]
    exact Verdict.noConfusion
  · exact hfits.elim (fun hs => absurd (hlisted hs) hbefore) fun hd => absurd (hlisted hd) hafter

/-- replaying a barrier goes through, or faults because it is stale -/
theorem replay_outcome {b : Barrier k} (h : n.Tracks g) (hb : b.Named g) :
    (∃ keep n', n.replay policy pass g b = .ok (keep, n') ∧ n'.Tracks g) ∨
      (policy = .fault ∧ n.replay policy pass g b = .error (.staleBarrier pass b.text) ∧
        ∀ s, n.Holds g s → ¬ b.onNative.Fits g.nativeLayout s) := by
  obtain ⟨t, hf, hv⟩ := h b hb
  have hmoved : Tracks g ((b.native, (t.transition b.part b.after).1) :: n) := by
    intro c hc
    rw [find_cons]
    split
    · exact ⟨_, rfl, Tracker.valid_transition hv⟩
    · exact h c hc
  rw [replay, hf]
  simp only [bind, Except.bind, Tracker.check_ok hv]
  cases hj : judge (t.states b.part) b.before b.after with
  | keep => exact Or.inl ⟨_, _, rfl, hmoved⟩
  | redundant => exact Or.inl ⟨_, _, rfl, hmoved⟩
  | stale =>
    cases policy with
    | drop => exact Or.inl ⟨_, _, rfl, hmoved⟩
    | fault => exact Or.inr ⟨rfl, rfl, fun s hholds hfits => hholds.judge_ne_stale hb hf hfits hj⟩

/-- replaying the barriers of a pass goes through, or faults because one is stale -/
theorem sift_outcome {bs : List (Barrier k)} (h : n.Tracks g) (hb : ∀ b ∈ bs, b.Named g) :
    (∃ kept dropped n', n.sift policy pass g bs = .ok (kept, dropped, n') ∧ n'.Tracks g) ∨
      (policy = .fault ∧ (∃ text, n.sift policy pass g bs = .error (.staleBarrier pass text)) ∧
        ∀ s, n.Holds g s → ¬ Timely g.nativeLayout s (bs.map Barrier.onNative)) := by
  induction bs generalizing n with
  | nil => exact Or.inl ⟨[], 0, n, rfl, h⟩
  | cons b bs ih =>
    obtain ⟨hb, hbs⟩ := List.forall_mem_cons.1 hb
    rcases @replay_outcome k g n policy pass b h hb with ⟨keep, n₁, hr, h₁⟩ | ⟨hfault, hr, hstale⟩
    · rcases ih h₁ hbs with ⟨kept, dropped, n₂, hs, h₂⟩ | ⟨hfault, ⟨text, hs⟩, hstale⟩
      · simp only [sift, bind, Except.bind, hr, hs]
        cases keep
        · exact Or.inl ⟨_, _, _, rfl, h₂⟩
        · exact Or.inl ⟨_, _, _, rfl, h₂⟩
      · refine Or.inr ⟨hfault, ⟨text, ?_⟩, fun s hholds ht => hstale _ (replay_cases hholds hb hr).1 ht.2⟩
        simp only [sift, bind, Except.bind, hr, hs]
    · refine Or.inr ⟨hfault, ⟨b.text, ?_⟩, fun s hholds ht => hstale s hholds ht.1⟩
      simp only [sift, bind, Except.bind, hr]

/-- barriers that could be replayed leave the states they lead to -/
theorem Holds.sift {bs kept : List (Barrier k)} {dropped : Nat} {n' : Natives k} (h : n.Holds g s)
    (hb : ∀ b ∈ bs, b.Named g) (hs : n.sift policy pass g bs = .ok (kept, dropped, n')) :
    n'.Holds g ((bs.map Barrier.onNative).foldl (Barrier.apply g.nativeLayout) s) := by
  obtain ⟨-, -, -, hlast⟩ := sift_sieved h hb hs 0
  rwa [statesAfter, List.foldl_map, ← List.foldl_map] at hlast

end Natives

/-- **Elimination goes through, or faults because a barrier is stale.** It does so only if stale barriers are faults. -/
theorem eliminate_outcome {g : Registry} {policy : StalePolicy} {passName : Nat → String} {ns : Both Natives}
    {batches : Batches} (h : ∀ k, (ns.get k).Tracks g) (hb : ∀ x ∈ batches, ∀ k, ∀ b ∈ x.2.get k, b.Named g) :
    (∃ final dropped, eliminate policy passName g ns batches = .ok (final, dropped)) ∨
      (policy = .fault ∧ (∃ pass text, eliminate policy passName g ns batches = .error (.staleBarrier pass text)) ∧
        ∀ w : World, (∀ k, (ns.get k).Holds g (w k)) →
          ¬ ∀ k, Timely g.nativeLayout (w k) ((batches.ofKind k).map fun x => x.2.onNative)) := by
  induction batches generalizing ns with
  | nil => exact Or.inl ⟨[], 0, rfl⟩
  | cons x rest ih =>
    obtain ⟨i, batch⟩ := x
    obtain ⟨hb, hbs⟩ := List.forall_mem_cons.1 hb
    have hcons : ∀ k, (Batches.ofKind k ((i, batch) :: rest)).map (fun x => x.2.onNative) =
        (batch.get k).map Barrier.onNative ++ (Batches.ofKind k rest).map fun x => x.2.onNative := by
      intro k
      simp [Batches.ofKind, Function.comp_def]
    simp only [hcons, timely_append]
    have hsift := fun k => @Natives.sift_outcome k g (ns.get k) policy (passName i) (batch.get k) (h k) (hb k)
    rcases hsift .texture with ⟨textures, ts, nt, et, ht⟩ | ⟨hfault, ⟨text, et⟩, hstale⟩
    · rcases hsift .buffer with ⟨buffers, bs, nb, eb, hbuf⟩ | ⟨hfault, ⟨text, eb⟩, hstale⟩
      · have htracks : ∀ k, ((⟨nt, nb⟩ : Both Natives).get k).Tracks g := by
          intro k
          cases k
          · exact ht
          · exact hbuf
        have hholds : ∀ w : World, (∀ k, (ns.get k).Holds g (w k)) → ∀ k, ((⟨nt, nb⟩ : Both Natives).get k).Holds g
            (((batch.get k).map Barrier.onNative).foldl (Barrier.apply g.nativeLayout) (w k)) := by
          intro w hw k
          cases k
          · exact (hw .texture).sift (hb .texture) et
          · exact (hw .buffer).sift (hb .buffer) eb
        simp only [Both.get] at et eb
        rcases ih htracks hbs with ⟨later, dropped, el⟩ | ⟨hfault, ⟨pass, text, el⟩, hstale⟩
        · refine Or.inl ⟨(i, ⟨textures, buffers⟩) :: later, ts + bs + dropped, ?_⟩
          rw [eliminate, et]
          simp only [bind, Except.bind, eb, el]
          rfl
        · refine Or.inr ⟨hfault, ⟨pass, text, ?_⟩, fun w hw ht => hstale _ (hholds w hw) fun k => (ht k).2⟩
          rw [eliminate, et]
          simp only [bind, Except.bind, eb, el]
      · simp only [Both.get] at et eb
        refine Or.inr ⟨hfault, ⟨passName i, text, ?_⟩, fun w hw ht => hstale _ (hw .buffer) (ht .buffer).1⟩
        rw [eliminate, et]
        simp only [bind, Except.bind, eb]
    · simp only [Both.get] at et
      refine Or.inr ⟨hfault, ⟨passName i, text, ?_⟩, fun w hw ht => hstale _ (hw .texture) (ht .texture).1⟩
      rw [eliminate, et]
      rfl

/-- the first passes are replayed as if there were no others -/
theorem eliminate_take {g : Registry} {policy : StalePolicy} {passName : Nat → String} {ns : Both Natives}
    {batches final : Batches} {dropped : Nat} (he : eliminate policy passName g ns batches = .ok (final, dropped))
    (j : Nat) : ∃ dropped', eliminate policy passName g ns (batches.take j) = .ok (final.take j, dropped') := by
  induction batches generalizing ns final dropped j with
  | nil =>
    cases he
    exact ⟨0, by rw [List.take_nil]; rfl⟩
  | cons x rest ih =>
    obtain ⟨i, batch⟩ := x
    obtain ⟨⟨textures, n₁, ts⟩, ht, he⟩ := bind_eq_ok.1 he
    obtain ⟨⟨buffers, n₂, bs⟩, hb, he⟩ := bind_eq_ok.1 he
    obtain ⟨⟨later, n₃⟩, hl, he⟩ := bind_eq_ok.1 he
    cases he
    cases j with
    | zero => exact ⟨0, rfl⟩
    | succ j =>
      obtain ⟨dropped', hrest⟩ := ih hl j
      refine ⟨n₁ + n₂ + dropped', ?_⟩
      rw [List.take_succ_cons, List.take_succ_cons, eliminate]
      exact bind_eq_ok.2 ⟨_, ht, bind_eq_ok.2 ⟨_, hb, bind_eq_ok.2 ⟨_, hrest, rfl⟩⟩⟩

end FrameGraph
