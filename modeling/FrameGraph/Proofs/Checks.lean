/-
Nothing goes wrong in keeping track of the parts of a resource.

Writing a part looks cells up by number, cuts runs of bytes and adds their sizes (`ResourceKind.check`). A part is only
written after it has been cut to the bounds, into a store that fits them, and then every cell has a number in the list,
the runs to be replaced are in order, and no size leaves its word.

- `check_ok`: writing a part that fits, into a store that fits.
- `Tracker.check_ok`, `Tracker.checkAll_ok`: the transitions of a valid tracker, whatever part they are asked to move.
- `Demand.checkAll_ok`: asking for any parts at all.
-/
import FrameGraph.Proofs.Demands
import Mathlib.Data.List.TakeWhile

namespace FrameGraph

variable {α : Type}

/-! ## Runs of bytes -/

namespace ByteMap

/-- the places of the runs are in order -/
theorem pairwise_piecesFrom {m : ByteMap α} (h : Dense m) (start : Nat) :
    (piecesFrom start m).Pairwise fun x y => x.1.offset + x.1.size ≤ y.1.offset := by
  induction m generalizing start with
  | nil => exact List.Pairwise.nil
  | cons r rs ih =>
    have hrs : Dense rs := fun y hy => h y (List.mem_cons_of_mem _ hy)
    refine List.pairwise_cons.2 ⟨fun x hx => ?_, ih hrs _⟩
    exact (mem_piecesFrom hrs hx).2.1

/-- a run is no longer than the map -/
theorem size_le_of_mem {m : ByteMap α} {r : Run α} (h : r ∈ m) : r.size ≤ m.values.length := by
  induction m with
  | nil => cases h
  | cons s rs ih =>
    rw [values, List.length_append, List.length_replicate]
    rcases List.mem_cons.1 h with rfl | h
    · exact Nat.le_add_right _ _
    · exact (ih h).trans (Nat.le_add_left _ _)

end ByteMap

/-- what is left after dropping satisfies nothing that was dropped for, if later elements satisfy it less -/
theorem not_of_mem_dropWhile {p : α → Bool} {R : α → α → Prop} {l : List α} (hl : l.Pairwise R)
    (hR : ∀ x y, R x y → p y = true → p x = true) {y : α} (hy : y ∈ l.dropWhile p) : p y = false := by
  induction l with
  | nil => cases hy
  | cons x l ih =>
    obtain ⟨hx, hl⟩ := List.pairwise_cons.1 hl
    rw [List.dropWhile_cons] at hy
    split at hy
    · exact ih hl hy
    · rename_i hpx
      rcases List.mem_cons.1 hy with rfl | hy
      · simpa using hpx
      · by_contra hpy
        exact hpx (hR x y (hx y hy) (by simpa using hpy))

theorem drop_length_takeWhile (p : α → Bool) (l : List α) : l.drop (l.takeWhile p).length = l.dropWhile p := by
  have h := congrArg (List.drop (l.takeWhile p).length) (@List.takeWhile_append_dropWhile _ p l)
  rw [List.drop_left] at h
  exact h.symm

theorem length_takeWhile_le_of_imp {p q : α → Bool} {l : List α} (h : ∀ x ∈ l, p x = true → q x = true) :
    (l.takeWhile p).length ≤ (l.takeWhile q).length := by
  induction l with
  | nil => exact le_rfl
  | cons x l ih =>
    obtain ⟨hx, hl⟩ := List.forall_mem_cons.1 h
    rw [List.takeWhile_cons, List.takeWhile_cons]
    by_cases hp : p x = true
    · rw [if_pos hp, if_pos (hx hp)]
      exact Nat.succ_le_succ (ih hl)
    · rw [if_neg hp]
      exact Nat.zero_le _

/-! ## Stores -/

namespace ResourceKind

variable {k : ResourceKind} [DecidableEq α]

omit [DecidableEq α] in
theorem check_texture {e : Extent} {r : Subresources} {cells : List α} (hr : texture.Inside e r)
    (h : texture.Sized e cells) : Grid.check e r cells = .ok () := by
  have hlength : cells.length = e.cells := h
  obtain ⟨⟨-, hmips⟩, -, hlayers⟩ := hr
  refine if_pos (List.all_eq_true.2 fun layer hl => List.all_eq_true.2 fun mip hm => ?_)
  rw [List.mem_range'_1] at hl hm
  have hmipEnd : r.mipEnd ≤ r.baseMip + r.mipCount := Nat.min_le_left _ _
  have hlayerEnd : r.layerEnd ≤ r.baseLayer + r.layerCount := Nat.min_le_left _ _
  rw [decide_eq_true_eq, hlength]
  exact cellIndex_lt (by omega) (by omega)

theorem check_buffer {n : Nat} {r : ByteSpan} {m : ByteMap α} (a : α) (hn : buffer.Measured n)
    (hr : buffer.Inside n r) (h : buffer.Sized n m) : m.check r a = .ok () := by
  have hn : n ≤ maxWord64 := hn
  obtain ⟨hsize, hstop⟩ := hr
  have hlength : m.values.length = n := h.1
  have hdense : m.Dense := h.2
  have hpieces : ∀ x ∈ m.pieces, 0 < x.1.size ∧ x.1.offset + x.1.size ≤ n := fun x hx => by
    have := ByteMap.mem_piecesFrom hdense hx
    omega
  have hword : ∀ x ∈ m.pieces, x.1.stop = x.1.offset + x.1.size := fun x hx =>
    saturatingAdd_eq ((hpieces x hx).2.trans hn)
  have hspan : r.stop = r.offset + r.size := saturatingAdd_eq (hstop.trans hn)
  let ends : ByteSpan × α → Bool := fun x => x.1.stop ≤ r.offset
  let starts : ByteSpan × α → Bool := fun x => x.1.offset < r.stop
  -- a run that ends before the span also starts before its end
  have hrange : (m.pieces.takeWhile ends).length ≤ (m.pieces.takeWhile starts).length := by
    refine length_takeWhile_le_of_imp fun x hx hends => ?_
    have hx := hword x hx
    simp only [ends, starts, decide_eq_true_eq] at hends ⊢
    omega
  -- a run that is replaced ends after the start of the span
  have hcut : ∀ x ∈ (m.pieces.drop (m.pieces.takeWhile ends).length).takeWhile starts,
      max x.1.offset r.offset ≤ min x.1.stop r.stop := by
    intro x hx
    have hstarts : starts x = true := List.mem_takeWhile_imp hx
    have hdrop : x ∈ m.pieces.dropWhile ends := by
      rw [← drop_length_takeWhile]
      exact (List.takeWhile_sublist _).subset hx
    have hmem : x ∈ m.pieces := (List.dropWhile_sublist ends).subset hdrop
    have hafter : ¬ x.1.stop ≤ r.offset := by
      have hp : (m.pieces).Pairwise fun x y => x.1.stop ≤ y.1.stop := by
        refine (ByteMap.pairwise_piecesFrom hdense 0).imp_of_mem fun {x y} hx hy hxy => ?_
        rw [hword x hx, hword y hy]
        omega
      refine of_decide_eq_false (not_of_mem_dropWhile hp (fun x y hxy hy => ?_) hdrop)
      exact decide_eq_true (hxy.trans (of_decide_eq_true hy))
    have hstop := hword x hmem
    simp only [starts, decide_eq_true_eq] at hstarts
    omega
  have hjoined : ∀ x ∈ m.write r a, x.size ≤ maxWord64 := by
    intro x hx
    have hw : buffer.Sized n (m.write r a) := sized_write a ⟨hsize, hstop⟩ h
    have hlength : (m.write r a).values.length = n := hw.1
    exact (ByteMap.size_le_of_mem hx).trans (hlength ▸ hn)
  unfold ByteMap.check
  dsimp only
  rw [if_neg (Nat.not_lt.2 hrange), if_pos]
  rw [Bool.and_eq_true, List.all_eq_true, List.all_eq_true]
  exact ⟨fun x hx => decide_eq_true (hcut x hx), fun x hx => decide_eq_true (hjoined x hx)⟩

/-- **Writing a part that fits into a store that fits goes well.** -/
theorem check_ok {b : k.Bounds} {p : k.Part} {s : k.Store α} (a : α) (hb : k.Measured b) (hp : k.Inside b p)
    (hs : k.Sized b s) : k.check b p a s = .ok () := by
  cases k with
  | texture => exact check_texture hp hs
  | buffer => exact check_buffer a hb hp hs

end ResourceKind

/-! ## Trackers and demands -/

/-- steps that all go well go well together -/
theorem forM_ok {f : α → Except Fault Unit} {as : List α} (h : ∀ a ∈ as, f a = .ok ()) : as.forM f = .ok () := by
  induction as with
  | nil => rfl
  | cons a as ih =>
    obtain ⟨ha, has⟩ := List.forall_mem_cons.1 h
    rw [List.forM, ha]
    exact ih has

open ResourceKind

variable {k : ResourceKind}

namespace Tracker

variable {t : Tracker k}

/-- **The transitions of a valid tracker go well,** whatever part they are asked to move. -/
theorem check_ok (h : t.Valid) (part : Option k.Part) (a : ResourceState) : t.check part a = .ok () := by
  unfold check
  cases hr : k.region t.bounds part with
  | none => rfl
  | some p =>
    have hp := inside_of_region h.measured hr
    cases hc : t.content with
    | split s => exact ResourceKind.check_ok a h.measured hp (h.sized s hc)
    | whole b =>
      simp only
      split
      · rfl
      · exact ResourceKind.check_ok a h.measured hp (sized_fill t.bounds b)

theorem checkAll_ok (h : t.Valid) (reqs : List (Option k.Part × Want k)) : t.checkAll reqs = .ok () := by
  induction reqs generalizing t with
  | nil => rfl
  | cons x reqs ih =>
    rw [checkAll, check_ok h]
    exact ih (valid_transition h)

end Tracker

namespace Demand

variable {b : k.Bounds} {d : Demand k}

theorem check_ok (hb : k.Measured b) (hd : k.Sized b (d.store b)) (part : Option k.Part) (w : Want k) :
    d.check b part w = .ok () := by
  unfold check
  cases hc : part.bind (k.clamp b) with
  | none => rfl
  | some p =>
    simp only
    split
    · rfl
    · obtain ⟨q, -, hq⟩ := Option.bind_eq_some_iff.1 hc
      exact ResourceKind.check_ok (some w) hb (inside_of_clamp hq) hd

/-- **Asking for any parts goes well.** -/
theorem checkAll_ok (hb : k.Measured b) (hd : k.Sized b (d.store b)) (asked : List (Option k.Part × Want k)) :
    d.checkAll b asked = .ok () := by
  induction asked generalizing d with
  | nil => rfl
  | cons x asked ih =>
    rw [checkAll, check_ok hb hd]
    exact ih (sized_add hd)

end Demand

end FrameGraph
