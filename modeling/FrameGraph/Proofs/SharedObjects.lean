/-
Native objects that several records stand for.

Each record is tracked by itself, but its barriers move the native object behind it. If the records of an object agree on
its size and on the state it starts in (`Registry.Agree`), barriers can be replayed on the objects: the world has the
native objects in place of the records (`Registry.nativeLayout`, `Registry.nativesInitially`), and a barrier is on its
object in place of its record (`Barrier.onNative`).

- `Sieved`: a barrier that starts from the state of every address it covers is kept. Otherwise it is redundant, if it
  finds every address in its after-state already, or it is stale. The states move with all of them.
- `eliminate_sieved`: elimination leaves of some barriers the ones kept in this sense, and without a fault none is stale.
- `Sieved.replays`: if none is stale, the barriers kept replay by themselves. It is enough that none is on the object
  looked at (`Sieved.replays_on`).
-/
import FrameGraph.Proofs.Elimination
import FrameGraph.Proofs.Independence

namespace FrameGraph

open ResourceKind

variable {k : ResourceKind} {g : Registry} {L : Layout} {s s' : States}

/-! ## The world of native objects -/

/-- if the records have the same native object, they agree on its size and on the state it starts in -/
def Resource.AgreesWith (r q : Resource k) : Prop :=
  r.native.isSome = true → r.native = q.native → r.bounds = q.bounds ∧ r.initial = q.initial

instance (r q : Resource k) : Decidable (r.AgreesWith q) :=
  inferInstanceAs (Decidable (r.native.isSome = true → r.native = q.native → r.bounds = q.bounds ∧ r.initial = q.initial))

namespace Registry

/-- the first record of a native object -/
def recordOf (g : Registry) (k : ResourceKind) (native : Nat) : Option (Resource k) :=
  (g.get k).find? fun r => r.native = some native

/-- the size of each native object -/
def nativeLayout (g : Registry) : Layout := fun k n => (g.recordOf k n).map Resource.bounds

/-- every native object in its initial state -/
def nativesInitially (g : Registry) : World := fun k n i =>
  (g.recordOf k n).bind fun r => if i < k.size r.bounds then some r.initial else none

/-- the records of one native object agree on its size and on the state it starts in -/
def Agree (g : Registry) : Prop := ∀ k, ∀ r ∈ g.get k, ∀ q ∈ g.get k, r.AgreesWith q

instance (g : Registry) : Decidable g.Agree :=
  decidable_of_iff ((∀ r ∈ g.textures, ∀ q ∈ g.textures, r.AgreesWith q) ∧ ∀ r ∈ g.buffers, ∀ q ∈ g.buffers, r.AgreesWith q)
    ⟨fun h k => match k with
      | .texture => h.1
      | .buffer => h.2, fun h => ⟨h .texture, h .buffer⟩⟩

/-- records that agree are as good as the first one -/
theorem Agree.recordOf (h : g.Agree) {r : Resource k} (hr : r ∈ g.get k) {native : Nat} (hn : r.native = some native) :
    ∃ q, g.recordOf k native = some q ∧ q.bounds = r.bounds ∧ q.initial = r.initial := by
  cases hq : g.recordOf k native with
  | none => exact absurd (decide_eq_true hn) (List.find?_eq_none.1 hq r hr)
  | some q =>
    have hqn : q.native = some native := by simpa using List.find?_some hq
    refine ⟨q, rfl, h k q (List.mem_of_find?_eq_some hq) r hr ?_ (hqn.trans hn.symm)⟩
    rw [hqn, Option.isSome_some]

end Registry

namespace Barrier

/-- the barrier as one on the native object -/
def onNative (b : Barrier k) : Barrier k := { b with resource := b.native }

/-- the barrier starts from the state of every address it covers -/
def Starts (L : Layout) (s : States) (b : Barrier k) : Prop := ∀ i, b.covers L i = true → s b.resource i = some b.before

/-- every address the barrier covers is in its after-state already -/
def Done (L : Layout) (s : States) (b : Barrier k) : Prop := ∀ i, b.covers L i = true → s b.resource i = some b.after

@[simp] theorem onNative_resource (b : Barrier k) : b.onNative.resource = b.native := rfl

/-- a barrier that is done changes nothing -/
theorem apply_of_done {b : Barrier k} (h : b.Done L s) : b.apply L s = s := by
  funext n i
  rw [apply]
  split
  · rename_i hi
    obtain ⟨rfl, hi⟩ := hi
    exact (h i hi).symm
  · rfl

end Barrier

/-! ## Sieving -/

/-- barriers of passes, replayed on native objects: of all of them, which are kept and which are stale -/
inductive Sieved (L : Layout) : States → List (Nat × Barrier k) → List (Nat × Barrier k) → List (Nat × Barrier k) → Prop
  | nil {s : States} : Sieved L s [] [] []
  | keep {s : States} {x : Nat × Barrier k} {full kept stale : List (Nat × Barrier k)} :
    x.2.onNative.Starts L s → Sieved L (x.2.onNative.apply L s) full kept stale →
      Sieved L s (x :: full) (x :: kept) stale
  | redundant {s : States} {x : Nat × Barrier k} {full kept stale : List (Nat × Barrier k)} :
    ¬ x.2.onNative.Starts L s → x.2.onNative.Done L s → Sieved L s full kept stale → Sieved L s (x :: full) kept stale
  | stale {s : States} {x : Nat × Barrier k} {full kept stale : List (Nat × Barrier k)} :
    ¬ x.2.onNative.Starts L s → ¬ x.2.onNative.Done L s → Sieved L (x.2.onNative.apply L s) full kept stale →
      Sieved L s (x :: full) kept (x :: stale)

/-- of some barriers of passes the ones on one native object -/
def onObject (native : Nat) (xs : List (Nat × Barrier k)) : List (Nat × Barrier k) := xs.filter fun x => x.2.native = native

theorem onObject_cons_self {x : Nat × Barrier k} (xs : List (Nat × Barrier k)) :
    onObject x.2.native (x :: xs) = x :: onObject x.2.native xs := List.filter_cons_of_pos (decide_eq_true rfl)

theorem onObject_cons_of_ne {x : Nat × Barrier k} {native : Nat} (h : x.2.native ≠ native) (xs : List (Nat × Barrier k)) :
    onObject native (x :: xs) = onObject native xs := List.filter_cons_of_neg (by simpa using h)

/-- the states after some barriers of passes, all of them issued -/
def statesAfter (L : Layout) (s : States) (xs : List (Nat × Barrier k)) : States :=
  xs.foldl (fun s x => x.2.onNative.apply L s) s

namespace Sieved

variable {full full' kept kept' stale stale' : List (Nat × Barrier k)} {native : Nat}

theorem append (h : Sieved L s full kept stale) (h' : Sieved L (statesAfter L s full) full' kept' stale') :
    Sieved L s (full ++ full') (kept ++ kept') (stale ++ stale') := by
  induction h with
  | nil => exact h'
  | keep hs _ ih => exact keep hs (ih h')
  | redundant hs hd _ ih =>
    rw [statesAfter, List.foldl_cons, Barrier.apply_of_done hd] at h'
    exact redundant hs hd (ih h')
  | stale hs hd _ ih => exact Sieved.stale hs hd (ih h')

/-- **The barriers kept replay on the objects no stale barrier is on,** -/
theorem replays_on (h : Sieved L s full kept stale) (hstale : ∀ x ∈ stale, x.2.native ≠ native)
    (hs : s native = s' native) : Replays L s' ((onObject native kept).map fun x => x.2.onNative) := by
  induction h generalizing s' with
  | nil => trivial
  | @keep s x full kept stale hx _ ih =>
    by_cases hn : x.2.native = native
    · subst hn
      rw [onObject_cons_self, List.map_cons]
      refine ⟨fun i hi => ?_, ih hstale (Barrier.apply_congr _ hs)⟩
      rw [← hx i hi, Barrier.onNative_resource, hs]
    · rw [onObject_cons_of_ne hn]
      exact ih hstale ((Barrier.apply_of_ne hn).trans hs)
  | redundant _ _ _ ih => exact ih hstale hs
  | stale _ _ _ ih =>
    obtain ⟨hn, hstale⟩ := List.forall_mem_cons.1 hstale
    exact ih hstale ((Barrier.apply_of_ne hn).trans hs)

/-- and on all objects if none is stale. -/
theorem replays (h : Sieved L s full kept []) : Replays L s (kept.map fun x => x.2.onNative) := by
  generalize hstale : ([] : List (Nat × Barrier k)) = stale at h
  induction h with
  | nil => trivial
  | keep hx _ ih => exact ⟨hx, ih hstale⟩
  | redundant _ _ _ ih => exact ih hstale
  | stale _ _ _ _ => cases hstale

/-- barriers that replay on an object are all kept -/
theorem onObject_eq (h : Sieved L s full kept stale) (hs : s native = s' native)
    (hr : Replays L s' ((onObject native full).map fun x => x.2.onNative)) :
    onObject native kept = onObject native full := by
  -- a barrier of the object that comes next starts from the states, so it is not dropped
  have hstarts : ∀ {s s' : States} {x : Nat × Barrier k} {full : List (Nat × Barrier k)},
      s x.2.native = s' x.2.native → Replays L s' ((onObject x.2.native (x :: full)).map fun x => x.2.onNative) →
        x.2.onNative.Starts L s := by
    intro s s' x full hs hr i hi
    rw [onObject_cons_self] at hr
    rw [Barrier.onNative_resource, hs]
    exact hr.1 i hi
  induction h generalizing s' with
  | nil => rfl
  | @keep s x full kept stale _ _ ih =>
    by_cases hn : x.2.native = native
    · subst hn
      rw [onObject_cons_self] at hr
      rw [onObject_cons_self, onObject_cons_self, ih (Barrier.apply_congr _ hs) hr.2]
    · rw [onObject_cons_of_ne hn] at hr
      rw [onObject_cons_of_ne hn, onObject_cons_of_ne hn]
      exact ih ((Barrier.apply_of_ne hn).trans hs) hr
  | @redundant s x full kept stale hx _ _ ih =>
    by_cases hn : x.2.native = native
    · subst hn
      exact absurd (hstarts hs hr) hx
    · rw [onObject_cons_of_ne hn] at hr ⊢
      exact ih hs hr
  | @stale s x full kept stale hx _ _ ih =>
    by_cases hn : x.2.native = native
    · subst hn
      exact absurd (hstarts hs hr) hx
    · rw [onObject_cons_of_ne hn] at hr ⊢
      exact ih ((Barrier.apply_of_ne hn).trans hs) hr

end Sieved

/-! ## Elimination -/

/-- how a barrier is judged -/
theorem judge_cases (states : List ResourceState) (before after : ResourceState) :
    (judge states before after = .keep ∧ ∀ v ∈ states, v = before) ∨
      (judge states before after = .redundant ∧ (¬ ∀ v ∈ states, v = before) ∧ ∀ v ∈ states, v = after) ∨
      (judge states before after = .stale ∧ (¬ ∀ v ∈ states, v = before) ∧ ¬ ∀ v ∈ states, v = after) := by
  simp only [judge, List.all_eq_true, decide_eq_true_eq]
  by_cases hb : ∀ v ∈ states, v = before
  · exact Or.inl ⟨if_pos hb, hb⟩
  · by_cases ha : ∀ v ∈ states, v = after
    · exact Or.inr (Or.inl ⟨by rw [if_neg hb, if_pos ha], hb, ha⟩)
    · exact Or.inr (Or.inr ⟨by rw [if_neg hb, if_neg ha], hb, ha⟩)

namespace Natives

variable {n n' : Natives k} {b : Barrier k} {policy : StalePolicy} {pass : String}

/-- the states kept for native objects are those of a world of native objects -/
def Holds (g : Registry) (n : Natives k) (s : States) : Prop := ∀ b : Barrier k, b.Named g →
  ∃ t, n.find g b = .ok t ∧ t.Valid ∧ g.nativeLayout k b.native = some t.bounds ∧ ∀ i, t.stateAt i = s b.native i

theorem holds_nil (h : g.Agree) : Holds g ([] : Natives k) (g.nativesInitially k) := by
  intro b hb
  obtain ⟨r, hr, hn⟩ := Option.bind_eq_some_iff.1 hb
  obtain ⟨q, hq, hbounds, hinitial⟩ := h.recordOf (List.mem_of_getElem? hr) hn
  refine ⟨.uniform r.bounds r.initial, ?_, Tracker.valid_uniform (k.measured_bounds r.descriptor) _, ?_, fun i => ?_⟩
  · simp only [find, List.lookup_nil, hr]
  · rw [Registry.nativeLayout, hq, Option.map_some, hbounds]
    rfl
  · rw [Registry.nativesInitially, hq, Option.bind_some, hbounds, hinitial]
    rfl

/-- before any barrier, no state is kept for an object -/
theorem holds_empty (h : g.Agree) (k : ResourceKind) :
    Holds g ((⟨[], []⟩ : Both Natives).get k) (g.nativesInitially k) := by
  cases k <;> exact holds_nil h

/-- **What replaying one barrier decides.** The states move in each case. -/
theorem replay_cases {keep : Bool} (h : n.Holds g s) (hb : b.Named g)
    (hr : n.replay policy pass g b = .ok (keep, n')) :
    n'.Holds g (b.onNative.apply g.nativeLayout s) ∧
      ((keep = true ∧ b.onNative.Starts g.nativeLayout s) ∨
        (keep = false ∧ ¬ b.onNative.Starts g.nativeLayout s ∧ b.onNative.Done g.nativeLayout s) ∨
        (keep = false ∧ ¬ b.onNative.Starts g.nativeLayout s ∧ ¬ b.onNative.Done g.nativeLayout s ∧
          policy = .drop)) := by
  obtain ⟨t, hf, hv, hl, hst⟩ := h b hb
  have hcov : ∀ i, b.onNative.covers g.nativeLayout i = k.reaches t.bounds b.part i := by
    intro i
    rw [Barrier.covers, Barrier.onNative_resource, hl]
    rfl
  -- the listed states are those of the addresses covered
  have hlisted : ∀ v, (∀ w ∈ t.states b.part, w = v) ↔
      ∀ i, b.onNative.covers g.nativeLayout i = true → s b.native i = some v := by
    intro v
    rw [Tracker.forall_mem_states_iff hv]
    simp only [hcov, hst]
  have hmoved : Holds g ((b.native, (t.transition b.part b.after).1) :: n) (b.onNative.apply g.nativeLayout s) := by
    intro c hc
    rw [find_cons]
    by_cases hn : c.native = b.native
    · refine ⟨_, if_pos hn, Tracker.valid_transition hv, ?_, fun i => ?_⟩
      · rw [hn, hl, Tracker.bounds_transition hv]
      · rw [Tracker.stateAt_transition hv, Barrier.apply, hcov, hst, hn]
        simp only [Barrier.onNative, true_and]
    · obtain ⟨t', h1, h2, h3, h4⟩ := h c hc
      refine ⟨t', (if_neg hn).trans h1, h2, h3, fun i => ?_⟩
      rw [Barrier.apply, if_neg fun e => hn e.1.symm, h4]
  rw [replay, hf] at hr
  simp only [bind, Except.bind, Tracker.check_ok hv] at hr
  rcases judge_cases (t.states b.part) b.before b.after with ⟨e, hbefore⟩ | ⟨e, hbefore, hafter⟩ | ⟨e, hbefore, hafter⟩
  · simp only [e] at hr
    cases hr
    exact ⟨hmoved, Or.inl ⟨rfl, (hlisted _).1 hbefore⟩⟩
  · simp only [e] at hr
    cases hr
    exact ⟨hmoved, Or.inr (Or.inl ⟨rfl, fun hs => hbefore ((hlisted _).2 hs), (hlisted _).1 hafter⟩)⟩
  · cases policy with
    | fault =>
      simp only [e] at hr
      cases hr
    | drop =>
      simp only [e] at hr
      cases hr
      refine ⟨hmoved, Or.inr (Or.inr ⟨rfl, fun hs => hbefore ((hlisted _).2 hs), fun hd => ?_, rfl⟩)⟩
      exact hafter ((hlisted _).2 hd)

/-- replaying the barriers of a pass sieves them -/
theorem sift_sieved {bs kept : List (Barrier k)} {dropped : Nat} (h : n.Holds g s) (hb : ∀ b ∈ bs, b.Named g)
    (hs : n.sift policy pass g bs = .ok (kept, dropped, n')) (i : Nat) :
    ∃ stale, Sieved g.nativeLayout s (bs.map (i, ·)) (kept.map (i, ·)) stale ∧ (policy = .fault → stale = []) ∧
      n'.Holds g (statesAfter g.nativeLayout s (bs.map (i, ·))) := by
  induction bs generalizing n s kept dropped with
  | nil =>
    cases hs
    exact ⟨[], .nil, fun _ => rfl, h⟩
  | cons b bs ih =>
    obtain ⟨hb, hbs⟩ := List.forall_mem_cons.1 hb
    obtain ⟨⟨keep, n₁⟩, hr, hs'⟩ := bind_eq_ok.1 hs
    obtain ⟨⟨rest, dropped', n₂⟩, hrest, hend⟩ := bind_eq_ok.1 hs'
    obtain ⟨hmoved, hcase⟩ := replay_cases h hb hr
    rcases hcase with ⟨rfl, hstarts⟩ | ⟨rfl, hno, hdone⟩ | ⟨rfl, hno, hnot, rfl⟩
    · cases hend
      obtain ⟨stale, hsieved, hstale, hlast⟩ := ih hmoved hbs hrest
      exact ⟨stale, .keep hstarts hsieved, hstale, hlast⟩
    · cases hend
      rw [Barrier.apply_of_done hdone] at hmoved
      obtain ⟨stale, hsieved, hstale, hlast⟩ := ih hmoved hbs hrest
      refine ⟨stale, .redundant hno hdone hsieved, hstale, ?_⟩
      rw [List.map_cons, statesAfter, List.foldl_cons, Barrier.apply_of_done hdone]
      exact hlast
    · cases hend
      obtain ⟨stale, hsieved, -, hlast⟩ := ih hmoved hbs hrest
      exact ⟨_, .stale hno hnot hsieved, StalePolicy.noConfusion, hlast⟩

end Natives

/-- the barriers of one kind, each with the index of its pass -/
def Batches.ofKind (k : ResourceKind) (batches : Batches) : List (Nat × Barrier k) :=
  batches.flatMap fun x => (x.2.get k).map (x.1, ·)

/-- there is a batch left for each pass -/
theorem eliminate_indices {policy : StalePolicy} {passName : Nat → String} {ns : Both Natives} {batches final : Batches}
    {dropped : Nat} (he : eliminate policy passName g ns batches = .ok (final, dropped)) :
    final.map Prod.fst = batches.map Prod.fst := by
  induction batches generalizing ns final dropped with
  | nil =>
    cases he
    rfl
  | cons x rest ih =>
    obtain ⟨⟨textures, n₁, ts⟩, -, he⟩ := bind_eq_ok.1 he
    obtain ⟨⟨buffers, n₂, bs⟩, -, he⟩ := bind_eq_ok.1 he
    obtain ⟨⟨later, n₃⟩, hlater, he⟩ := bind_eq_ok.1 he
    cases he
    exact congrArg (x.1 :: ·) (ih hlater)

/-- **Elimination sieves the barriers,** and none is stale if a stale one is a fault. -/
theorem eliminate_sieved {policy : StalePolicy} {passName : Nat → String} {ns : Both Natives} {w : World}
    {batches final : Batches} {dropped : Nat} (h : ∀ k, (ns.get k).Holds g (w k))
    (hb : ∀ x ∈ batches, ∀ k, ∀ b ∈ x.2.get k, b.Named g)
    (he : eliminate policy passName g ns batches = .ok (final, dropped)) (k : ResourceKind) :
    ∃ stale, Sieved g.nativeLayout (w k) (batches.ofKind k) (final.ofKind k) stale ∧ (policy = .fault → stale = []) := by
  induction batches generalizing ns w final dropped with
  | nil =>
    cases he
    exact ⟨[], .nil, fun _ => rfl⟩
  | cons x rest ih =>
    obtain ⟨i, batch⟩ := x
    obtain ⟨hb, hbs⟩ := List.forall_mem_cons.1 hb
    obtain ⟨⟨textures, n₁, ts⟩, ht, he⟩ := bind_eq_ok.1 he
    obtain ⟨⟨buffers, n₂, bs⟩, hbuf, he⟩ := bind_eq_ok.1 he
    obtain ⟨⟨later, n₃⟩, hlater, he⟩ := bind_eq_ok.1 he
    cases he
    have hsift : ∀ k, ∃ stale, Sieved g.nativeLayout (w k) ((batch.get k).map (i, ·))
        (((⟨textures, buffers⟩ : Batch).get k).map (i, ·)) stale ∧ (policy = .fault → stale = []) ∧
          ((⟨ts, bs⟩ : Both Natives).get k).Holds g
            (statesAfter g.nativeLayout (w k) ((batch.get k).map (i, ·))) := by
      intro k
      cases k
      · exact Natives.sift_sieved (h .texture) (hb .texture) ht i
      · exact Natives.sift_sieved (h .buffer) (hb .buffer) hbuf i
    obtain ⟨stale, hsieved, hstale, -⟩ := hsift k
    obtain ⟨stale', hsieved', hstale'⟩ := ih (w := fun k => statesAfter g.nativeLayout (w k) ((batch.get k).map (i, ·)))
      (fun k => (hsift k).choose_spec.2.2) hbs hlater
    exact ⟨stale ++ stale', hsieved.append hsieved', fun e => by rw [hstale e, hstale' e, List.append_nil]⟩

end FrameGraph
