/-
One representation for each meaning.

A tracker means a state for each address, and two trackers that mean the same could still differ: in whether they hold a
store, and in how a byte map is cut into runs. Transitions leave no such choice. A write joins neighbouring runs of equal
value, and a store whose addresses agree is dropped for the state they agree on.

- `ByteMap.fuse_eq_encode`: a byte map that is joined is the run-length encoding of its values.
- `ResourceKind.eq_of_values`: so stores that are joined and have the same values are the same store.
- `Tracker.Canonical`: a tracker that holds a store only if its addresses differ, and a joined one.
- `Tracker.Canonical.transition`: transitions keep trackers canonical.
- `Tracker.Canonical.eq_of_stateAt`: canonical trackers that mean the same are equal.
-/
import FrameGraph.Proofs.Tracking

namespace FrameGraph

variable {α : Type} [DecidableEq α]

/-! ## Runs of bytes -/

namespace ByteMap

/-- the run-length encoding of some values -/
def encode : List α → ByteMap α
  | [] => []
  | a :: as => push ⟨1, a⟩ (encode as)

theorem push_succ (n : Nat) (a : α) (m : ByteMap α) : push ⟨n + 1, a⟩ m = push ⟨1, a⟩ (push ⟨n, a⟩ m) := by
  cases m with
  | nil => simp [push, Nat.add_comm]
  | cons s rs =>
    by_cases h : a = s.value
    · simp only [push, if_pos h, if_true]
      rw [Nat.add_right_comm, Nat.add_comm 1]
    · simp [push, h, Nat.add_comm]

theorem encode_replicate {n : Nat} (hn : 0 < n) (a : α) (as : List α) :
    encode (List.replicate n a ++ as) = push ⟨n, a⟩ (encode as) := by
  induction n with
  | zero => exact absurd hn (Nat.lt_irrefl 0)
  | succ n ih =>
    rw [List.replicate_succ, List.cons_append, encode]
    rcases Nat.eq_zero_or_pos n with rfl | hn
    · rfl
    · rw [ih hn, ← push_succ]

/-- **Joining the runs of a map gives the run-length encoding of its values.** -/
theorem fuse_eq_encode {m : ByteMap α} (h : Dense m) : fuse m = encode m.values := by
  induction m with
  | nil => rfl
  | cons r rs ih =>
    have hr : 0 < r.size := h r List.mem_cons_self
    rw [fuse, ih fun x hx => h x (List.mem_cons_of_mem _ hx), values, encode_replicate hr]

end ByteMap

/-! ## Stores -/

namespace ResourceKind

variable {k : ResourceKind} {b : k.Bounds} {s s' : k.Store α}

/-- no two neighbouring runs have the same value -/
def Joined : (k : ResourceKind) → k.Store α → Prop
  | texture, _ => True
  | buffer, s => ByteMap.fuse s = s

theorem joined_write {p : k.Part} (a : α) (hp : k.Inside b p) (h : k.Sized b s) : k.Joined (k.write b p a s) := by
  cases k with
  | texture => trivial
  | buffer =>
    have hd := ByteMap.dense_splice a hp.1 h.2
    calc ByteMap.fuse (ByteMap.write p a s)
        = ByteMap.encode (ByteMap.write p a s).values := ByteMap.fuse_eq_encode (ByteMap.dense_write a hp.1 h.2)
      _ = ByteMap.write p a s := by rw [ByteMap.write, ByteMap.values_fuse, ByteMap.fuse_eq_encode hd]

/-- **A joined store is determined by its values.** -/
theorem eq_of_values (h : k.Sized b s) (h' : k.Sized b s') (hj : k.Joined s) (hj' : k.Joined s')
    (hv : k.values s = k.values s') : s = s' := by
  cases k with
  | texture => exact hv
  | buffer =>
    calc s = ByteMap.encode (ByteMap.values s) := (Eq.symm hj).trans (ByteMap.fuse_eq_encode h.2)
      _ = ByteMap.encode (ByteMap.values s') := congrArg ByteMap.encode hv
      _ = s' := (ByteMap.fuse_eq_encode h'.2).symm.trans hj'

/-- a joined store claims the value all its addresses have -/
theorem uniform_of_values {a : α} (h : k.Sized b s) (hj : k.Joined s) (hb : 0 < k.size b)
    (hv : ∀ v ∈ k.values s, v = a) : k.uniform? s = some a := by
  have hl : 0 < (k.values s).length := lt_of_lt_of_eq hb (length_values h).symm
  cases k with
  | texture => exact Grid.uniform?_eq_some_iff.2 ⟨List.ne_nil_of_length_pos hl, hv⟩
  | buffer =>
    have hrun : s = [⟨(ByteMap.values s).length, a⟩] := by
      calc s = ByteMap.encode (ByteMap.values s) := (Eq.symm hj).trans (ByteMap.fuse_eq_encode h.2)
        _ = ByteMap.encode (List.replicate (ByteMap.values s).length a ++ []) := by
          rw [List.append_nil]
          exact congrArg ByteMap.encode (List.eq_replicate_length.2 hv)
        _ = [⟨(ByteMap.values s).length, a⟩] := ByteMap.encode_replicate hl a []
    rw [hrun]
    rfl

end ResourceKind

/-! ## Trackers -/

namespace Tracker

open ResourceKind

variable {k : ResourceKind} {t t' : Tracker k} {initial a : ResourceState} {part : Option k.Part}

/-- the tracker holds a store only if its addresses differ, and a joined one; without addresses it never leaves its
initial state -/
structure Canonical (initial : ResourceState) (t : Tracker k) : Prop where
  valid : t.Valid
  joined : ∀ s, t.content = .split s → k.Joined s ∧ k.uniform? s = none
  empty : k.size t.bounds = 0 → t.content = .whole initial

theorem canonical_uniform {b : k.Bounds} (hb : k.Measured b) (initial : ResourceState) :
    (uniform b initial).Canonical initial :=
  ⟨valid_uniform hb initial, fun _ h => (by cases h), fun _ => rfl⟩

/-- without addresses there is nothing to move -/
theorem transition_of_empty (h : t.Valid) (hz : k.size t.bounds = 0) : t.transition part a = (t, []) := by
  cases hr : k.region t.bounds part with
  | none => simp only [Tracker.transition, hr]
  | some p =>
    obtain ⟨i, hi, -⟩ := exists_holds (inside_of_region h.measured hr)
    exact absurd (hz ▸ hi) (Nat.not_lt_zero i)

/-- moving a part leaves no store whose addresses agree -/
theorem canonical_moveIn {s : k.Store ResourceState} {p : k.Part} (hb : k.Measured t.bounds)
    (hs : k.Sized t.bounds s) (hp : k.Inside t.bounds p) : (t.moveIn s p a).1.Canonical initial := by
  refine ⟨valid_moveIn hb hs hp, fun s' h => ?_, fun h => ?_⟩
  · simp only [moveIn, collapse] at h
    split at h
    · cases h
    · rename_i hno
      cases h
      exact ⟨joined_write a hp hs, hno⟩
  · obtain ⟨i, hi, -⟩ := exists_holds hp
    rw [bounds_moveIn] at h
    exact absurd (h ▸ hi) (Nat.not_lt_zero i)

/-- **A transition leaves a canonical tracker.** -/
theorem Canonical.transition (h : t.Canonical initial) : (t.transition part a).1.Canonical initial := by
  rcases transition_cases h.valid part a with ⟨e, -⟩ | ⟨b, -, -, -, e⟩ | ⟨s, p, hs, hp, -, -, e⟩
  · rwa [e]
  · rw [e]
    refine ⟨valid_uniform h.valid.measured a, fun _ hc => (by cases hc), fun hz => ?_⟩
    rw [transition_of_empty h.valid hz] at e
    cases congrArg Prod.snd e
  · rw [e]
    exact canonical_moveIn h.valid.measured hs hp

/-- a canonical tracker of addresses that are all in one state holds that state -/
theorem Canonical.eq_uniform (h : t.Canonical initial) (hz : 0 < k.size t.bounds)
    (hs : ∀ i, i < k.size t.bounds → t.stateAt i = some a) : t = uniform t.bounds a := by
  obtain ⟨b, c⟩ := t
  cases c with
  | whole v =>
    have hv : (⟨b, .whole v⟩ : Tracker k).stateAt 0 = some v := if_pos hz
    rw [hs 0 hz] at hv
    rw [uniform, Option.some.inj hv]
  | split s =>
    obtain ⟨hj, hno⟩ := h.joined s rfl
    have hsized := h.valid.sized s rfl
    rw [uniform_of_values (a := a) hsized hj hz fun v hv => ?_] at hno
    · cases hno
    · obtain ⟨i, hi⟩ := List.mem_iff_getElem?.1 hv
      have hlt : i < k.size b := length_values hsized ▸ (List.getElem?_eq_some_iff.1 hi).1
      have hsi := hs i hlt
      rw [stateAt_split hlt, hi] at hsi
      exact Option.some.inj hsi

theorem Canonical.eq_of_whole (h : t.Canonical initial) (hb : t'.bounds = t.bounds) (hz : 0 < k.size t.bounds)
    (hs : ∀ i, t'.stateAt i = t.stateAt i) (hw : t'.content = .whole a) : t' = t := by
  obtain ⟨b, c⟩ := t'
  cases hw
  rw [h.eq_uniform (a := a) hz fun i hi => ?_]
  · exact congrArg (uniform · a) hb
  · rw [← hs i]
    exact if_pos (hb ▸ hi)

theorem values_of_stateAt {b : k.Bounds} {s s' : k.Store ResourceState} (hs : k.Sized b s) (hs' : k.Sized b s')
    (h : ∀ i, (⟨b, .split s⟩ : Tracker k).stateAt i = (⟨b, .split s'⟩ : Tracker k).stateAt i) :
    k.values s = k.values s' := by
  refine List.ext_getElem? fun i => ?_
  by_cases hi : i < k.size b
  · exact (stateAt_split hi).symm.trans ((h i).trans (stateAt_split hi))
  · have hle := Nat.le_of_not_lt hi
    rw [List.getElem?_eq_none (length_values hs ▸ hle), List.getElem?_eq_none (length_values hs' ▸ hle)]

/-- **Canonical trackers that mean the same are equal.** -/
theorem Canonical.eq_of_stateAt (h : t.Canonical initial) (h' : t'.Canonical initial) (hb : t.bounds = t'.bounds)
    (hs : ∀ i, t.stateAt i = t'.stateAt i) : t = t' := by
  rcases Nat.eq_zero_or_pos (k.size t.bounds) with hz | hpos
  · have hc := h.empty hz
    have hc' := h'.empty (hb ▸ hz)
    cases t
    cases t'
    cases hb
    cases hc
    cases hc'
    rfl
  · cases hc : t.content with
    | whole v => exact h'.eq_of_whole hb (hb ▸ hpos) hs hc
    | split s =>
      cases hc' : t'.content with
      | whole v => exact (h.eq_of_whole hb.symm hpos (fun i => (hs i).symm) hc').symm
      | split s' =>
        have hj := (h.joined s hc).1
        have hj' := (h'.joined s' hc').1
        have hsized := h.valid.sized s hc
        have hsized' := h'.valid.sized s' hc'
        cases t
        cases t'
        cases hb
        cases hc
        cases hc'
        rw [eq_of_values hsized hsized' hj hj' (values_of_stateAt hsized hsized' hs)]

/-- a part that is moved away and back leaves the tracker as it was -/
theorem Canonical.transition_back {b : ResourceState} (h : t.Canonical initial)
    (hs : ∀ i, k.reaches t.bounds part i = true → t.stateAt i = some b) :
    ((t.transition part a).1.transition part b).1 = t := by
  have hb : (t.transition part a).1.bounds = t.bounds := bounds_transition h.valid
  have hv : (t.transition part a).1.Valid := valid_transition h.valid
  refine h.transition.transition.eq_of_stateAt h ((bounds_transition hv).trans hb) fun i => ?_
  rw [stateAt_transition hv, hb, stateAt_transition h.valid]
  by_cases hr : k.reaches t.bounds part i = true
  · rw [if_pos hr, hs i hr]
  · rw [if_neg hr, if_neg hr]

end Tracker

end FrameGraph
