/-
What is remembered of the accesses of each resource, and what a pass waits for because of it.

A pass waits for the latest of the positions its usages depend on (`Pass.dependency`). It then notes its usages one by
one, and each may overwrite what the one before it noted. What a whole pass leaves behind depends only on whether it
alters the resource: that it writes it or carries a barrier on it.

- `Pass.exists_le_dependency`: the position waited for is past everything a used resource depends on.
- `Pass.note_altered`: a pass that alters a resource is remembered as its last change, and no later read on the other
  queue is.
- `Pass.note_used`: a pass that only uses it is remembered as the last read on its queue, and nothing else changes.
- `Pass.note_unused`: a pass that does not use it changes nothing.
-/
import FrameGraph.Execution.TwoQueues
import Mathlib.Data.List.Induction
import Mathlib.Order.MinMax

namespace FrameGraph

/-! ## Queues -/

theorem Queue.other_other (q : Queue) : q.other.other = q := by
  cases q <;> rfl

theorem Queue.eq_or_eq_other (q r : Queue) : r = q ∨ r = q.other := by
  cases q <;> cases r <;> first | exact Or.inl rfl | exact Or.inr rfl

theorem Queue.eq_other_of_ne {q r : Queue} (h : q ≠ r) : q = r.other :=
  (r.eq_or_eq_other q).resolve_left h

namespace PerQueue

variable {α : Type}

@[simp] theorem get_both (a : α) (q : Queue) : (both a).get q = a := by
  cases q <;> rfl

/-- replacing the value of a queue, seen from either queue -/
theorem get_set (p : PerQueue α) (q r : Queue) (a : α) : (p.set q a).get r = if r = q then a else p.get r := by
  cases q <;> cases r <;> rfl

/-- what replacing a value keeps of it stays the same for both queues -/
theorem apply_get_set {β : Type} (f : α → β) {p : PerQueue α} {q : Queue} {a : α} (h : f a = f (p.get q)) (r : Queue) :
    f ((p.set q a).get r) = f (p.get r) := by
  rw [get_set]
  split
  · rename_i hr
    rw [hr, h]
  · rfl

end PerQueue

/-! ## The later of two positions -/

theorem exists_le_later_left {a b : Option Nat} {n : Nat} (h : a = some n) : ∃ m, later a b = some m ∧ n ≤ m := by
  subst h
  cases b with
  | none => exact ⟨n, rfl, le_rfl⟩
  | some m => exact ⟨_, rfl, Nat.le_max_left n m⟩

theorem exists_le_later_right {a b : Option Nat} {n : Nat} (h : b = some n) : ∃ m, later a b = some m ∧ n ≤ m := by
  subst h
  cases a with
  | none => exact ⟨n, rfl, le_rfl⟩
  | some m => exact ⟨_, rfl, Nat.le_max_right m n⟩

theorem later_eq_some {a b : Option Nat} {n : Nat} (h : later a b = some n) : a = some n ∨ b = some n := by
  cases a with
  | none => exact .inr h
  | some m =>
    cases b with
    | none => exact .inl h
    | some l =>
      rcases max_choice m l with e | e
      · exact .inl (h ▸ congrArg some e.symm)
      · exact .inr (h ▸ congrArg some e.symm)

theorem latest_append (positions : List (Option Nat)) (a : Option Nat) :
    latest (positions ++ [a]) = later (latest positions) a :=
  List.foldl_append

/-- the latest position is past each of them -/
theorem exists_le_latest {positions : List (Option Nat)} {n : Nat} (h : some n ∈ positions) :
    ∃ m, latest positions = some m ∧ n ≤ m := by
  induction positions using List.reverseRecOn with
  | nil => cases h
  | append_singleton positions a ih =>
    rw [latest_append]
    rcases List.mem_append.1 h with h | h
    · obtain ⟨m, hm, hn⟩ := ih h
      obtain ⟨l, hl, hml⟩ := exists_le_later_left (b := a) hm
      exact ⟨l, hl, hn.trans hml⟩
    · exact exists_le_later_right (List.mem_singleton.1 h).symm

/-- and it is one of them -/
theorem mem_of_latest {positions : List (Option Nat)} {n : Nat} (h : latest positions = some n) :
    some n ∈ positions := by
  induction positions using List.reverseRecOn with
  | nil => cases h
  | append_singleton positions a ih =>
    rw [latest_append] at h
    rcases later_eq_some h with h | h
    · exact List.mem_append_left _ (ih h)
    · exact List.mem_append_right _ (List.mem_singleton.2 h.symm)

/-! ## What a resource depends on -/

namespace Recent

variable {r : Recent} {on : Queue} {n : Nat}

theorem exists_le_dependency_of_change (changes : Bool) (h : r.change = some (on, n)) :
    ∃ m, r.dependency on changes = some m ∧ n ≤ m :=
  exists_le_later_left (by rw [h, Option.filter_some, if_pos (decide_eq_true rfl)]; rfl)

theorem exists_le_dependency_of_read (h : r.read.get on = some n) : ∃ m, r.dependency on true = some m ∧ n ≤ m :=
  exists_le_later_right (by rw [if_pos rfl, h])

/-- the position waited for is that of the last change, or that of the last read if the access changes the resource -/
theorem of_dependency {changes : Bool} (h : r.dependency on changes = some n) :
    r.change = some (on, n) ∨ changes = true ∧ r.read.get on = some n := by
  rcases later_eq_some h with h | h
  · obtain ⟨⟨q, m⟩, hq, rfl⟩ := Option.map_eq_some_iff.1 h
    obtain ⟨hr, hq⟩ := Option.filter_eq_some_iff.1 hq
    rw [decide_eq_true_eq] at hq
    subst hq
    exact .inl hr
  · by_cases hc : changes = true
    · rw [if_pos hc] at h
      exact .inr ⟨hc, h⟩
    · rw [if_neg hc] at h
      cases h

end Recent

/-! ## Passes and resources -/

/-- the pass has a usage of the resource -/
def Pass.Uses (p : Pass) (key : Key) : Prop := ∃ u ∈ p.usages, u.key = key

/-- the pass has a writing usage of the resource or carries a barrier on it -/
def Pass.Alters (p : Pass) (key : Key) : Prop :=
  (∃ u ∈ p.usages, u.key = key ∧ u.writes = true) ∨ key ∈ p.transitioned

instance (p : Pass) (key : Key) : Decidable (p.Uses key) := inferInstanceAs (Decidable (∃ u ∈ p.usages, u.key = key))

instance (p : Pass) (key : Key) : Decidable (p.Alters key) :=
  inferInstanceAs (Decidable ((∃ u ∈ p.usages, u.key = key ∧ u.writes = true) ∨ key ∈ p.transitioned))

/-- both passes use some resource, and one of them alters it -/
def Pass.Conflicts (p q : Pass) : Prop := ∃ key, p.Uses key ∧ q.Uses key ∧ (p.Alters key ∨ q.Alters key)

namespace Pass

variable {p : Pass} {key : Key} {a : Accesses} {position : Nat}

/-- a pass that uses a resource alters it if one of the usages changes it -/
theorem alters_iff (h : p.Uses key) : p.Alters key ↔ ∃ u ∈ p.usages, u.key = key ∧ p.changes u = true := by
  constructor
  · rintro (⟨u, hu, hk, hw⟩ | ht)
    · exact ⟨u, hu, hk, by rw [changes, hw, Bool.true_or]⟩
    · obtain ⟨u, hu, rfl⟩ := h
      exact ⟨u, hu, rfl, by rw [changes, List.contains_iff_mem.2 ht, Bool.or_true]⟩
  · rintro ⟨u, hu, rfl, hc⟩
    rcases Bool.or_eq_true_iff.1 hc with hw | ht
    · exact .inl ⟨u, hu, rfl, hw⟩
    · exact .inr (List.contains_iff_mem.1 ht)

/-- **A pass waits for the last change of each resource it uses, and for the last read of each it alters.** -/
theorem exists_le_dependency {n : Nat} (hu : p.Uses key)
    (h : (a.of key).change = some (p.kind.queue.other, n) ∨
      p.Alters key ∧ (a.of key).read.get p.kind.queue.other = some n) :
    ∃ m, p.dependency a = some m ∧ n ≤ m := by
  have hmem : ∀ u ∈ p.usages, ∀ m, (a.of u.key).dependency p.kind.queue.other (p.changes u) = some m →
      ∃ l, p.dependency a = some l ∧ m ≤ l :=
    fun u hu m hm => exists_le_latest (List.mem_map.2 ⟨u, hu, hm⟩)
  rcases h with h | ⟨ha, h⟩
  · obtain ⟨u, hu, rfl⟩ := hu
    obtain ⟨m, hm, hn⟩ := Recent.exists_le_dependency_of_change (p.changes u) h
    obtain ⟨l, hl, hml⟩ := hmem u hu m hm
    exact ⟨l, hl, hn.trans hml⟩
  · obtain ⟨u, hmemu, rfl, hc⟩ := (alters_iff hu).1 ha
    obtain ⟨m, hm, hn⟩ := Recent.exists_le_dependency_of_read h
    rw [← hc] at hm
    obtain ⟨l, hl, hml⟩ := hmem u hmemu m hm
    exact ⟨l, hl, hn.trans hml⟩

/-- **And it waits for nothing else:** the position is that of the last change of a resource it uses, or of the last read
of one it alters. -/
theorem of_dependency {n : Nat} (h : p.dependency a = some n) :
    ∃ key, p.Uses key ∧ ((a.of key).change = some (p.kind.queue.other, n) ∨
      p.Alters key ∧ (a.of key).read.get p.kind.queue.other = some n) := by
  obtain ⟨u, hu, hn⟩ := List.mem_map.1 (mem_of_latest h)
  have huses : p.Uses u.key := ⟨u, hu, rfl⟩
  refine ⟨u.key, huses, (Recent.of_dependency hn).imp_right fun ⟨hc, hr⟩ => ⟨?_, hr⟩⟩
  exact (alters_iff huses).2 ⟨u, hu, rfl, hc⟩

end Pass

/-! ## What a pass notes -/

theorem Accesses.of_cons (key key' : Key) (r : Recent) (a : Accesses) :
    Accesses.of ((key', r) :: a) key = if key = key' then r else a.of key := by
  unfold of
  rw [List.lookup_cons]
  by_cases h : key = key'
  · rw [if_pos h, h, beq_self_eq_true]
    rfl
  · rw [if_neg h, beq_false_of_ne h]

namespace Pass

variable {p : Pass} {key : Key} {a : Accesses} {position : Nat}

/-- what one usage after another leaves of what is remembered of a resource -/
def touchAll (p : Pass) (position : Nat) (us : List Usage) (r : Recent) : Recent :=
  us.foldl (fun r u => r.touch p.kind.queue position u.reads (p.changes u)) r

/-- only the usages of a resource count for it -/
theorem of_noteAccesses (p : Pass) (position : Nat) (a : Accesses) (key : Key) :
    (p.noteAccesses position a).of key =
      p.touchAll position (p.usages.filter fun u => decide (u.key = key)) (a.of key) := by
  unfold noteAccesses touchAll
  induction p.usages using List.reverseRecOn with
  | nil => rfl
  | append_singleton us u ih =>
    rw [List.foldl_append, List.foldl_cons, List.foldl_nil, Accesses.of_cons, List.filter_append, List.foldl_append]
    by_cases h : key = u.key
    · subst h
      have hu : [u].filter (fun v => decide (v.key = u.key)) = [u] :=
        List.filter_eq_self.2 fun v hv => decide_eq_true (congrArg Usage.key (List.mem_singleton.1 hv))
      rw [if_pos rfl, ih, hu]
      rfl
    · have hu : [u].filter (fun v => decide (v.key = key)) = [] :=
        List.filter_eq_nil_iff.2 fun v hv hk => h (List.mem_singleton.1 hv ▸ (of_decide_eq_true hk).symm)
      rw [if_neg h, ih, hu]
      rfl

/-- a read is remembered where the pass stands or where it was before -/
theorem read_touchAll {us : List Usage} {r : Recent} {q : Queue} {n : Nat}
    (h : (p.touchAll position us r).read.get q = some n) :
    (q = p.kind.queue ∧ n = position) ∨ r.read.get q = some n := by
  induction us using List.reverseRecOn with
  | nil => exact .inr h
  | append_singleton us u ih =>
    rw [touchAll, List.foldl_append, List.foldl_cons, List.foldl_nil] at h
    unfold Recent.touch at h
    split at h
    · rw [PerQueue.get_both] at h
      cases h
    · split at h
      · rw [PerQueue.get_set] at h
        split at h
        · rename_i hq
          cases h
          exact .inl ⟨hq, rfl⟩
        · exact ih h
      · exact ih h

/-- one change among the usages decides, wherever it stands -/
theorem touchAll_of_changes {us : List Usage} {r : Recent} (h : ∃ u ∈ us, p.changes u = true) :
    (p.touchAll position us r).change = some (p.kind.queue, position) ∧
      (p.touchAll position us r).read.get p.kind.queue.other = none := by
  induction us using List.reverseRecOn with
  | nil =>
    obtain ⟨u, hu, -⟩ := h
    cases hu
  | append_singleton us u ih =>
    rw [touchAll, List.foldl_append, List.foldl_cons, List.foldl_nil]
    unfold Recent.touch
    by_cases hc : p.changes u = true
    · rw [if_pos hc]
      exact ⟨rfl, PerQueue.get_both _ _⟩
    · obtain ⟨v, hv, hcv⟩ := h
      have hv : v ∈ us := (List.mem_append.1 hv).resolve_right fun e => hc (List.mem_singleton.1 e ▸ hcv)
      obtain ⟨h1, h2⟩ := ih ⟨v, hv, hcv⟩
      rw [if_neg hc]
      split
      · exact ⟨h1, (PerQueue.get_set_other _ _ _).trans h2⟩
      · exact ⟨h1, h2⟩

/-- without a change only the last read on the queue moves -/
theorem touchAll_of_reads {us : List Usage} (position : Nat) (r : Recent) (h : ∀ u ∈ us, p.changes u = false) :
    (p.touchAll position us r).change = r.change ∧
      (p.touchAll position us r).read.get p.kind.queue.other = r.read.get p.kind.queue.other ∧
      (us ≠ [] → (p.touchAll position us r).read.get p.kind.queue = some position) := by
  induction us using List.reverseRecOn with
  | nil => exact ⟨rfl, rfl, fun h => absurd rfl h⟩
  | append_singleton us u ih =>
    obtain ⟨h1, h2, -⟩ := ih fun v hv => h v (List.mem_append_left _ hv)
    have hc : p.changes u = false := h u (List.mem_append_right _ List.mem_cons_self)
    have hr : u.reads = true := by
      obtain ⟨hw, -⟩ := Bool.or_eq_false_iff.1 hc
      unfold Usage.writes at hw
      unfold Usage.reads
      cases ha : u.use.access with
      | read => rfl
      | write | readWrite =>
        rw [ha] at hw
        cases hw
    rw [touchAll, List.foldl_append, List.foldl_cons, List.foldl_nil, hc]
    unfold Recent.touch
    rw [if_neg Bool.false_ne_true, if_pos hr]
    exact ⟨h1, (PerQueue.get_set_other _ _ _).trans h2, fun _ => PerQueue.get_set_self _ _ _⟩

theorem note_unused (h : ¬ p.Uses key) : (p.noteAccesses position a).of key = a.of key := by
  rw [of_noteAccesses, List.filter_eq_nil_iff.2]
  · rfl
  · exact fun u hu hk => h ⟨u, hu, of_decide_eq_true hk⟩

theorem note_altered (h : p.Uses key) (ha : p.Alters key) :
    ((p.noteAccesses position a).of key).change = some (p.kind.queue, position) ∧
      ((p.noteAccesses position a).of key).read.get p.kind.queue.other = none := by
  rw [of_noteAccesses]
  obtain ⟨u, hu, hk, hc⟩ := (alters_iff h).1 ha
  exact touchAll_of_changes ⟨u, List.mem_filter.2 ⟨hu, decide_eq_true hk⟩, hc⟩

theorem note_used (h : p.Uses key) (ha : ¬ p.Alters key) :
    ((p.noteAccesses position a).of key).change = (a.of key).change ∧
      ((p.noteAccesses position a).of key).read.get p.kind.queue.other = (a.of key).read.get p.kind.queue.other ∧
      ((p.noteAccesses position a).of key).read.get p.kind.queue = some position := by
  rw [of_noteAccesses]
  rw [alters_iff h] at ha
  have hreads : ∀ u ∈ p.usages.filter fun u => decide (u.key = key), p.changes u = false := by
    intro u hu
    obtain ⟨hu, hk⟩ := List.mem_filter.1 hu
    exact Bool.eq_false_iff.2 fun hc => ha ⟨u, hu, of_decide_eq_true hk, hc⟩
  obtain ⟨h1, h2, h3⟩ := touchAll_of_reads position (a.of key) hreads
  refine ⟨h1, h2, h3 fun hnil => ?_⟩
  obtain ⟨u, hu, hk⟩ := h
  exact List.filter_eq_nil_iff.1 hnil u hu (decide_eq_true hk)

/-- a read that is remembered is one of the pass, or was remembered before -/
theorem read_noteAccesses {q : Queue} {n : Nat} (h : ((p.noteAccesses position a).of key).read.get q = some n) :
    (q = p.kind.queue ∧ n = position ∧ p.Uses key) ∨ (a.of key).read.get q = some n := by
  by_cases hu : p.Uses key
  · rw [of_noteAccesses] at h
    exact (read_touchAll h).imp_left fun ⟨hq, hn⟩ => ⟨hq, hn, hu⟩
  · rw [note_unused hu] at h
    exact .inr h

/-- so is a change -/
theorem change_noteAccesses {q : Queue} {n : Nat} (h : ((p.noteAccesses position a).of key).change = some (q, n)) :
    (q = p.kind.queue ∧ n = position ∧ p.Uses key ∧ p.Alters key) ∨ (a.of key).change = some (q, n) := by
  by_cases hu : p.Uses key
  · by_cases ha : p.Alters key
    · rw [(note_altered hu ha).1, Option.some.injEq, Prod.mk.injEq] at h
      exact .inl ⟨h.1.symm, h.2.symm, hu, ha⟩
    · rw [(note_used hu ha).1] at h
      exact .inr h
  · rw [note_unused hu] at h
    exact .inr h

end Pass

end FrameGraph
