/-
Lists sorted by a key.

- `pairwise_sortOn`: the sorted list is in ascending order of keys; `sortOn_perm`: it holds the same elements.
- `sortOn_of_pairwise`: a list that is in order already is left alone.
- `filter_sortOn`: the sort is stable. `eq_of_filter_key`: a list in order is known by its elements of each key, so
  lists whose elements of each key are in the same order are sorted to the same list (`sortOn_congr`).
- `mem_ascending`, `pairwise_ascending`: the ascending list has the given elements, each once, and its keys rise.
-/
import FrameGraph.Sort
import Mathlib.Tactic

namespace FrameGraph

variable {α : Type} {key : α → List Nat} {a b : α} {as bs : List α}

/-! ## Sorting -/

theorem insertOn_perm (key : α → List Nat) (a : α) (bs : List α) : (insertOn key a bs).Perm (a :: bs) := by
  induction bs with
  | nil => exact List.Perm.refl _
  | cons b bs ih =>
    unfold insertOn
    split
    · exact (ih.cons b).trans (List.Perm.swap a b bs)
    · exact List.Perm.refl _

theorem sortOn_perm (key : α → List Nat) (as : List α) : (sortOn key as).Perm as := by
  induction as with
  | nil => exact List.Perm.refl _
  | cons a as ih => exact (insertOn_perm key a _).trans (ih.cons a)

/-- a list that is in order already is left alone -/
theorem sortOn_of_pairwise (h : as.Pairwise fun a b => (key b).lex (key a) = false) : sortOn key as = as := by
  induction as with
  | nil => rfl
  | cons a as ih =>
    obtain ⟨ha, has⟩ := List.pairwise_cons.1 h
    rw [sortOn, ih has]
    cases as with
    | nil => rfl
    | cons b bs => rw [insertOn, ha b List.mem_cons_self, if_neg Bool.false_ne_true]

theorem pairwise_insertOn (h : bs.Pairwise fun b c => key b ≤ key c) :
    (insertOn key a bs).Pairwise fun b c => key b ≤ key c := by
  induction bs with
  | nil => exact List.pairwise_singleton _ a
  | cons b bs ih =>
    obtain ⟨hb, hbs⟩ := List.pairwise_cons.1 h
    unfold insertOn
    split
    · rename_i hlex
      have hlt : key b < key a := List.lex_eq_true_iff_lt.1 hlex
      refine List.pairwise_cons.2 ⟨fun c hc => ?_, ih hbs⟩
      rcases mem_insertOn.1 hc with rfl | hc
      · exact hlt.le
      · exact hb c hc
    · rename_i hlex
      have hle : key a ≤ key b := le_of_not_gt fun hlt => hlex (List.lex_eq_true_iff_lt.2 hlt)
      refine List.pairwise_cons.2 ⟨fun c hc => ?_, h⟩
      rcases List.mem_cons.1 hc with rfl | hc
      · exact hle
      · exact hle.trans (hb c hc)

/-- **The sorted list is in order.** -/
theorem pairwise_sortOn (key : α → List Nat) (as : List α) : (sortOn key as).Pairwise fun a b => key a ≤ key b := by
  induction as with
  | nil => exact List.Pairwise.nil
  | cons a as ih => exact pairwise_insertOn ih

/-! ## Elements of one key -/

theorem filter_insertOn (v : List Nat) :
    (insertOn key a bs).filter (fun b => key b = v) = (a :: bs).filter fun b => key b = v := by
  induction bs with
  | nil => rfl
  | cons b bs ih =>
    unfold insertOn
    split
    · rename_i hlex
      have hlt : key b < key a := List.lex_eq_true_iff_lt.1 hlex
      rw [List.filter_cons, ih]
      -- an element that is passed over has another key
      by_cases hb : key b = v
      · have ha : key a ≠ v := fun ha => absurd (hb.trans ha.symm) hlt.ne
        simp [ha, hb]
      · simp [List.filter_cons, hb]
    · rfl

/-- **The sort is stable:** elements of one key keep their order. -/
theorem filter_sortOn (key : α → List Nat) (v : List Nat) (as : List α) :
    (sortOn key as).filter (fun a => key a = v) = as.filter fun a => key a = v := by
  induction as with
  | nil => rfl
  | cons a as ih => rw [sortOn, filter_insertOn, List.filter_cons, List.filter_cons, ih]

/-- a list in order does not begin after an element that it has -/
theorem head_le_of_filter_key (hb : (b :: bs).Pairwise fun x y => key x ≤ key y)
    (h : (b :: bs).filter (fun x => key x = key a) = (a :: as).filter fun x => key x = key a) : key b ≤ key a := by
  have hmem : a ∈ (b :: bs).filter fun x => key x = key a := by
    rw [h]
    exact List.mem_filter.2 ⟨List.mem_cons_self, decide_eq_true rfl⟩
  rcases List.mem_cons.1 (List.mem_filter.1 hmem).1 with rfl | ha
  · exact le_rfl
  · exact (List.pairwise_cons.1 hb).1 a ha

/-- **A list in order is known by its elements of each key.** -/
theorem eq_of_filter_key (ha : as.Pairwise fun x y => key x ≤ key y) (hb : bs.Pairwise fun x y => key x ≤ key y)
    (h : ∀ v, as.filter (fun x => key x = v) = bs.filter fun x => key x = v) : as = bs := by
  have hempty : ∀ (c : α) (cs : List α), ([] : List α) ≠ (c :: cs).filter fun x => key x = key c := fun c cs hnil => by
    rw [List.filter_cons_of_pos (by simp)] at hnil
    cases hnil
  induction as generalizing bs with
  | nil =>
    cases bs with
    | nil => rfl
    | cons b bs => exact absurd (h (key b)) (hempty b bs)
  | cons a as ih =>
    cases bs with
    | nil => exact absurd (h (key a)).symm (hempty a as)
    | cons b bs =>
      have hkey : key a = key b := le_antisymm (head_le_of_filter_key ha (h _)) (head_le_of_filter_key hb (h _).symm)
      have hself := h (key a)
      rw [List.filter_cons_of_pos (by simp), List.filter_cons_of_pos (by simp [hkey])] at hself
      obtain ⟨rfl, htail⟩ := List.cons.inj hself
      refine congrArg (a :: ·) (ih (List.pairwise_cons.1 ha).2 (List.pairwise_cons.1 hb).2 fun v => ?_)
      by_cases hv : key a = v
      · exact hv ▸ htail
      · have hv' := h v
        rwa [List.filter_cons_of_neg (by simpa using hv), List.filter_cons_of_neg (by simpa using hv)] at hv'

/-- lists whose elements of each key are in the same order are sorted to the same list -/
theorem sortOn_congr (h : ∀ v, as.filter (fun a => key a = v) = bs.filter fun a => key a = v) :
    sortOn key as = sortOn key bs := by
  refine eq_of_filter_key (pairwise_sortOn key as) (pairwise_sortOn key bs) fun v => ?_
  rw [filter_sortOn, filter_sortOn, h]

/-! ## Leaving out repetitions -/

section Repetitions

variable [BEq α]

/-- the elements already collected are put in front of what is left -/
theorem eraseRepsBy_loop (a : α) (as acc : List α) :
    List.eraseRepsBy.loop (· == ·) a as acc = acc.reverse ++ (a :: as).eraseReps := by
  have hloop : ∀ (as : List α) (a : α) (acc : List α), List.eraseRepsBy.loop (· == ·) a as acc =
      acc.reverse ++ List.eraseRepsBy.loop (· == ·) a as [] := by
    intro as
    induction as with
    | nil => simp [List.eraseRepsBy.loop]
    | cons b as ih =>
      intro a acc
      unfold List.eraseRepsBy.loop
      split
      · exact ih a acc
      · rw [ih b (a :: acc), ih b [a], List.reverse_cons, List.append_assoc, List.reverse_singleton]
  exact hloop as a acc

theorem eraseReps_cons_cons (a b : α) (as : List α) :
    (a :: b :: as).eraseReps = if a == b then (a :: as).eraseReps else a :: (b :: as).eraseReps := by
  cases h : a == b with
  | true =>
    rw [if_pos rfl, List.eraseReps, List.eraseRepsBy, List.eraseRepsBy.loop, h]
    rfl
  | false =>
    rw [if_neg Bool.false_ne_true, List.eraseReps, List.eraseRepsBy, List.eraseRepsBy.loop, h]
    exact eraseRepsBy_loop b as [a]

variable [LawfulBEq α]

theorem mem_eraseReps {as : List α} : a ∈ as.eraseReps ↔ a ∈ as := by
  match as with
  | [] => exact Iff.rfl
  | [b] => exact Iff.rfl
  | b :: c :: as =>
    rw [eraseReps_cons_cons]
    split
    · rename_i h
      rw [mem_eraseReps, ← eq_of_beq h]
      simp
    · rw [List.mem_cons, mem_eraseReps]
      exact List.mem_cons.symm

/-- in a list in order, what is left is in strict order, if the keys tell the elements apart -/
theorem pairwise_eraseReps (hkey : Function.Injective key) {as : List α} (h : as.Pairwise fun a b => key a ≤ key b) :
    as.eraseReps.Pairwise fun a b => key a < key b := by
  match as with
  | [] => exact List.Pairwise.nil
  | [a] => exact List.pairwise_singleton _ a
  | a :: b :: as =>
    obtain ⟨ha, htail⟩ := List.pairwise_cons.1 h
    rw [eraseReps_cons_cons]
    split
    · rename_i hab
      rw [eq_of_beq hab]
      exact pairwise_eraseReps hkey htail
    · rename_i hab
      refine List.pairwise_cons.2 ⟨fun c hc => ?_, pairwise_eraseReps hkey htail⟩
      have hlt : key a < key b := lt_of_le_of_ne (ha b List.mem_cons_self) fun e => hab (beq_of_eq (hkey e))
      rcases List.mem_cons.1 (mem_eraseReps.1 hc) with rfl | hc
      · exact hlt
      · exact hlt.trans_le ((List.pairwise_cons.1 htail).1 c hc)

theorem mem_ascending : a ∈ ascending key as ↔ a ∈ as := mem_eraseReps.trans mem_sortOn

/-- **The ascending list is in strict order,** so it lists nothing twice. -/
theorem pairwise_ascending (hkey : Function.Injective key) (as : List α) :
    (ascending key as).Pairwise fun a b => key a < key b :=
  pairwise_eraseReps hkey (pairwise_sortOn key as)

end Repetitions

end FrameGraph
