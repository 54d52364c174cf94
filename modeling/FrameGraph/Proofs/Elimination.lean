/-
Without shared native objects, no barrier is redundant across passes.

Elimination replays the barriers against one state per native object. When no two records share an object (`Distinct`),
these states are the states of the records (`Natives.Reflects`), and barriers that are the exact difference of what each
pass is granted always start from them.

- `replay_keep`: a barrier that starts from the state of every address it covers is kept.
- `eliminate_granted`: elimination leaves the batches as they are and drops nothing, whatever the policy for stale ones.
-/
import FrameGraph.Proofs.Synthesis
import FrameGraph.Plan.Redundancy

namespace FrameGraph

open ResourceKind

variable {k : ResourceKind} {g : Registry}

/-- no two records of one kind have the same native object -/
def Registry.Distinct (g : Registry) : Prop := ∀ k, ((g.get k).filterMap Resource.native).Nodup

theorem Registry.Distinct.index_eq (h : g.Distinct) {n m native : Nat}
    (hn : ((g.get k)[n]?).bind Resource.native = some native) (hm : ((g.get k)[m]?).bind Resource.native = some native) :
    n = m := by
  have hnodup := h k
  generalize g.get k = rs at hn hm hnodup
  induction rs generalizing n m with
  | nil => cases hn
  | cons r rs ih =>
    rw [List.filterMap_cons] at hnodup
    -- a record further down with the object of the first one would repeat it
    have hlater : ∀ i : Nat, r.native = some native → (rs[i]?).bind Resource.native = some native → False :=
      fun i hr hi => by
        obtain ⟨q, hq, hqn⟩ := Option.bind_eq_some_iff.1 hi
        rw [hr] at hnodup
        exact (List.nodup_cons.1 hnodup).1 (List.mem_filterMap.2 ⟨q, List.mem_of_getElem? hq, hqn⟩)
    have hrest : (rs.filterMap Resource.native).Nodup := by
      cases hr : r.native with
      | none =>
        rw [hr] at hnodup
        exact hnodup
      | some _ =>
        rw [hr] at hnodup
        exact (List.nodup_cons.1 hnodup).2
    cases n with
    | zero =>
      cases m with
      | zero => rfl
      | succ m => exact (hlater m hn hm).elim
    | succ n =>
      cases m with
      | zero => exact (hlater n hm hn).elim
      | succ m => exact congrArg Nat.succ (ih hn hm hrest)

theorem Registry.Distinct.congr {g' : Registry} (h : g.Distinct)
    (hn : ∀ k, (g'.get k).map Resource.native = (g.get k).map Resource.native) : g'.Distinct := by
  have hmap : ∀ {k} (rs : List (Resource k)), rs.filterMap Resource.native = (rs.map Resource.native).filterMap id := by
    intro k rs
    rw [List.filterMap_map]
    rfl
  intro k
  rw [hmap, hn k, ← hmap]
  exact h k

/-- every resource in its initial state -/
def Registry.initially (g : Registry) : World := fun k n i =>
  ((g.get k)[n]?).bind fun r => if i < k.size r.bounds then some r.initial else none

namespace Natives

variable {n : Natives k} {s : States} {b : Barrier k} {policy : StalePolicy} {pass : String}

/-- the state kept for the native object of each record is the record's state -/
def Reflects (g : Registry) (n : Natives k) (s : States) : Prop := ∀ b : Barrier k, b.Named g →
  ∃ t, n.find g b = .ok t ∧ t.Valid ∧ g.layout k b.resource = some t.bounds ∧ ∀ i, t.stateAt i = s b.resource i

theorem reflects_nil : Reflects g ([] : Natives k) (g.initially k) := by
  intro b hb
  obtain ⟨r, hr, -⟩ := Option.bind_eq_some_iff.1 hb
  refine ⟨.uniform r.bounds r.initial, ?_, Tracker.valid_uniform (k.measured_bounds r.descriptor) _, ?_, fun i => ?_⟩
  · simp only [find, List.lookup_nil, hr]
  · exact Registry.layout_of_getElem? hr
  · rw [Registry.initially, hr]
    rfl

theorem find_cons (n : Natives k) (native : Nat) (t : Tracker k) (b : Barrier k) :
    find g ((native, t) :: n) b = if b.native = native then .ok t else n.find g b := by
  unfold find
  by_cases h : b.native = native
  · rw [List.lookup_cons, beq_iff_eq.2 h, if_pos h]
  · rw [List.lookup_cons, beq_eq_false_iff_ne.2 h, if_neg h]

/-- a barrier that starts from the state of every address it covers is kept -/
theorem replay_keep (hd : g.Distinct) (h : n.Reflects g s) (hb : b.Named g)
    (hs : ∀ i, b.covers g.layout i = true → s b.resource i = some b.before) :
    ∃ n', n.replay policy pass g b = .ok (true, n') ∧ Reflects g n' (b.apply g.layout s) := by
  obtain ⟨t, hf, hv, hl, hst⟩ := h b hb
  have hcov : ∀ i, b.covers g.layout i = k.reaches t.bounds b.part i := by
    intro i
    rw [Barrier.covers, hl, Option.any_some]
  have hkeep : judge (t.states b.part) b.before b.after = .keep := by
    refine if_pos (List.all_eq_true.2 fun v hm => decide_eq_true ?_)
    refine (Tracker.forall_mem_states_iff hv).2 (fun i hi => ?_) v hm
    rw [hst, hs i ((hcov i).trans hi)]
  refine ⟨(b.native, (t.transition b.part b.after).1) :: n, ?_, fun c hc => ?_⟩
  · rw [replay, hf]
    simp only [bind, Except.bind, Tracker.check_ok hv, hkeep]
    rfl
  · rw [find_cons]
    by_cases hnat : c.native = b.native
    · -- one native object, so one record
      have hres : b.resource = c.resource := hd.index_eq hb (hc.trans (by rw [hnat]))
      refine ⟨_, if_pos hnat, Tracker.valid_transition hv, ?_, fun i => ?_⟩
      · rw [← hres, hl, Tracker.bounds_transition hv]
      · rw [Tracker.stateAt_transition hv, Barrier.apply, hcov, hst, ← hres]
        simp only [true_and]
    · have hres : b.resource ≠ c.resource := by
        intro e
        rw [Barrier.Named, e, hc] at hb
        exact hnat (Option.some.inj hb)
      obtain ⟨t', h1, h2, h3, h4⟩ := h c hc
      refine ⟨t', (if_neg hnat).trans h1, h2, h3, fun i => ?_⟩
      rw [Barrier.apply, if_neg fun e => hres e.1, h4]

theorem sift_keep (hd : g.Distinct) {bs : List (Barrier k)} (h : n.Reflects g s) (hb : ∀ b ∈ bs, b.Named g)
    (hs : Replays g.layout s bs) :
    ∃ n', n.sift policy pass g bs = .ok (bs, 0, n') ∧ Reflects g n' (bs.foldl (Barrier.apply g.layout) s) := by
  induction bs generalizing n s with
  | nil => exact ⟨n, rfl, h⟩
  | cons b bs ih =>
    obtain ⟨hb, hbs⟩ := List.forall_mem_cons.1 hb
    obtain ⟨n', e, h'⟩ := replay_keep hd h hb hs.1
    obtain ⟨n'', e', h''⟩ := ih h' hbs hs.2
    refine ⟨n'', ?_, h''⟩
    rw [sift, e]
    simp only [bind, Except.bind, e']
    rfl

end Natives

/-- **Elimination drops none of the barriers that are the exact difference of what each pass is granted.** -/
theorem eliminate_granted (hd : g.Distinct) {policy : StalePolicy} {passName : Nat → String} {passes : List Pass}
    {ns : Both Natives} {w : World} {batches : Batches} (hr : ∀ k, (ns.get k).Reflects g (w k))
    (h : Granted g.layout passes w batches) (hb : ∀ x ∈ batches, ∀ k, ∀ b ∈ x.2.get k, b.Named g) :
    eliminate policy passName g ns batches = .ok (batches, 0) := by
  induction batches generalizing ns w with
  | nil => rfl
  | cons x rest ih =>
    obtain ⟨i, batch⟩ := x
    obtain ⟨hmoves, hrest⟩ := h
    obtain ⟨hb, hbs⟩ := List.forall_mem_cons.1 hb
    have hsift : ∀ k, ∃ n', (ns.get k).sift policy (passName i) g (batch.get k) = .ok (batch.get k, 0, n') ∧
        n'.Reflects g (w.grant g.layout passes i k) := by
      intro k
      obtain ⟨h1, h2⟩ := (hmoves k).replays
      obtain ⟨n', e, hn⟩ := Natives.sift_keep hd (hr k) (hb k) h1
      exact ⟨n', e, h2 ▸ hn⟩
    obtain ⟨ts, et, ht⟩ := hsift .texture
    obtain ⟨bs, eb, hbuf⟩ := hsift .buffer
    have htail : eliminate policy passName g ⟨ts, bs⟩ rest = .ok (rest, 0) := by
      refine ih (fun k => ?_) hrest hbs
      cases k
      · exact ht
      · exact hbuf
    simp only [Both.get] at et eb
    rw [eliminate, et]
    simp only [bind, Except.bind, eb, htail]
    rfl

end FrameGraph
