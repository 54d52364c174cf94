/-
Which passes the backward search finds.

A pass is needed (`Needed`) if one of its usages writes a resource that is seen outside the graph, or one that a needed
pass reads. The search keeps the marked passes and a list of those whose sources it has yet to look for.

- `closed_closure`: whatever leads to a pass that has been found is found. The invariant is that every marked pass waits
  on the list or has all its sources marked.
- `closure_least`: nothing else is found than what every closed set around the first passes has.
- `mem_neededPasses`: so the passes found are the needed ones, whatever order and parts their usages have.
-/
import FrameGraph.Plan.Needed
import Mathlib.Tactic

namespace FrameGraph

/-! ## The closure -/

variable {n : Nat} {leads : Nat → Nat → Bool} {marked work : List Nat}

theorem mem_sources {i j : Nat} :
    i ∈ sources n leads marked j ↔ (i < n ∧ i ∉ marked) ∧ leads i j = true := by
  simp only [sources, unmarked, List.mem_filter, List.mem_range, Bool.not_eq_true', List.contains_eq_mem,
    decide_eq_false_iff_not]

theorem closure_cons (j : Nat) : closure n leads marked (j :: work) =
    closure n leads (marked ++ sources n leads marked j) (sources n leads marked j ++ work) := by
  rw [closure]

/-- what is marked is found -/
theorem subset_closure : ∀ j ∈ marked, j ∈ closure n leads marked work := by
  induction marked, work using closure.induct n leads with
  | case1 marked =>
    intro j hj
    rwa [closure]
  | case2 marked j work found ih =>
    intro i hi
    rw [closure_cons]
    exact ih i (List.mem_append_left _ hi)

/-- **Whatever leads to a pass that is found is found,** if each marked pass is on the list or has its sources marked. -/
theorem closed_closure (h : ∀ j ∈ marked, j ∈ work ∨ ∀ i < n, leads i j = true → i ∈ marked) :
    ∀ j ∈ closure n leads marked work, ∀ i < n, leads i j = true → i ∈ closure n leads marked work := by
  induction marked, work using closure.induct n leads with
  | case1 marked =>
    intro j hj i hi hl
    rw [closure] at hj ⊢
    rcases h j hj with hw | hm
    · cases hw
    · exact hm i hi hl
  | case2 marked j work found ih =>
    rw [closure_cons]
    apply ih
    intro m hm
    -- the sources of `j` are marked now, and wait on the list themselves
    rcases List.mem_append.1 hm with hm | hm
    · rcases h m hm with hw | hsources
      · rcases List.mem_cons.1 hw with rfl | hw
        · refine Or.inr fun i hi hl => ?_
          by_cases hmarked : i ∈ marked
          · exact List.mem_append_left _ hmarked
          · exact List.mem_append_right _ (mem_sources.2 ⟨⟨hi, hmarked⟩, hl⟩)
        · exact Or.inl (List.mem_append_right _ hw)
      · exact Or.inr fun i hi hl => List.mem_append_left _ (hsources i hi hl)
    · exact Or.inl (List.mem_append_left _ hm)

/-- **Only what every closed set has is found.** -/
theorem closure_least {S : Nat → Prop} (hm : ∀ j ∈ marked, S j) (hw : ∀ j ∈ work, S j)
    (hS : ∀ i j, i < n → leads i j = true → S j → S i) : ∀ i ∈ closure n leads marked work, S i := by
  induction marked, work using closure.induct n leads with
  | case1 marked =>
    intro i hi
    rw [closure] at hi
    exact hm i hi
  | case2 marked j work found ih =>
    obtain ⟨hj, hw⟩ := List.forall_mem_cons.1 hw
    have hfound : ∀ i ∈ found, S i := by
      intro i hi
      obtain ⟨⟨hlt, -⟩, hl⟩ := mem_sources.1 hi
      exact hS i j hlt hl hj
    rw [closure_cons]
    apply ih
    · intro i hi
      exact (List.mem_append.1 hi).elim (hm i) (hfound i)
    · intro i hi
      exact (List.mem_append.1 hi).elim (hfound i) (hw i)

/-! ## Needed passes -/

/-- a pass that writes a visible resource is needed, and so is one that writes what a needed pass reads -/
inductive Needed (visible : Key → Bool) (passes : List Pass) : Nat → Prop
  | visible {i : Nat} {p : Pass} {u : Usage} :
    passes[i]? = some p → u ∈ p.usages → u.writes = true → visible u.key = true → Needed visible passes i
  | feeds {i j : Nat} {p q : Pass} {u v : Usage} :
    passes[i]? = some p → u ∈ p.usages → u.writes = true →
      passes[j]? = some q → v ∈ q.usages → v.reads = true → u.key = v.key →
        Needed visible passes j → Needed visible passes i

theorem Needed.lt_length {visible : Key → Bool} {passes : List Pass} {i : Nat} (h : Needed visible passes i) :
    i < passes.length := by
  cases h with
  | visible hp => exact (List.getElem?_eq_some_iff.1 hp).1
  | feeds hp => exact (List.getElem?_eq_some_iff.1 hp).1

namespace Pass

variable {p : Pass} {key : Key}

theorem mem_readKeys : key ∈ p.readKeys ↔ ∃ u ∈ p.usages, u.reads = true ∧ u.key = key := by
  simp [readKeys, List.mem_eraseDups, and_assoc]

theorem mem_writeKeys : key ∈ p.writeKeys ↔ ∃ u ∈ p.usages, u.writes = true ∧ u.key = key := by
  simp [writeKeys, List.mem_eraseDups, and_assoc]

end Pass

variable {g : Registry} {passes : List Pass} {i j : Nat}

theorem mem_visibleWriters :
    i ∈ visibleWriters g passes ↔ ∃ p, passes[i]? = some p ∧ ∃ key ∈ p.plan.writes, g.visible key = true := by
  simp only [visibleWriters, List.mem_map, List.mem_filter, List.any_eq_true, Prod.exists]
  constructor
  · rintro ⟨p, m, ⟨hp, hv⟩, rfl⟩
    exact ⟨p, List.mk_mem_zipIdx_iff_getElem?.1 hp, hv⟩
  · rintro ⟨p, hp, hv⟩
    exact ⟨p, i, ⟨List.mk_mem_zipIdx_iff_getElem?.2 hp, hv⟩, rfl⟩

theorem feedsAt_iff : feedsAt passes i j = true ↔
    ∃ p q, passes[i]? = some p ∧ passes[j]? = some q ∧ ∃ key ∈ p.plan.writes, key ∈ q.plan.reads := by
  unfold feedsAt Pass.feeds
  split
  · rename_i p q hp hq
    simp [hp, hq]
  · rename_i hno
    constructor
    · intro h
      cases h
    · rintro ⟨p, q, hp, hq, -⟩
      exact absurd hq (hno p q hp)

/-- the sets noted for a pass are those of its usages -/
theorem getElem?_withSets {p : Pass} (h : (passes.map Pass.withSets)[i]? = some p) :
    ∃ d, passes[i]? = some d ∧ p.plan.reads = d.readKeys ∧ p.plan.writes = d.writeKeys := by
  rw [List.getElem?_map] at h
  obtain ⟨d, hd, rfl⟩ := Option.map_eq_some_iff.1 h
  exact ⟨d, hd, rfl, rfl⟩

theorem getElem?_withSets_of_some {d : Pass} (h : passes[i]? = some d) :
    (passes.map Pass.withSets)[i]? = some d.withSets := by
  rw [List.getElem?_map, h, Option.map_some]

/-- a pass that writes a visible resource is where the search starts -/
theorem mem_visibleWriters_withSets : i ∈ visibleWriters g (passes.map Pass.withSets) ↔
    ∃ p u, passes[i]? = some p ∧ u ∈ p.usages ∧ u.writes = true ∧ g.visible u.key = true := by
  rw [mem_visibleWriters]
  constructor
  · rintro ⟨p, hp, key, hkey, hv⟩
    obtain ⟨d, hd, -, hw⟩ := getElem?_withSets hp
    rw [hw] at hkey
    obtain ⟨u, hu, huw, rfl⟩ := Pass.mem_writeKeys.1 hkey
    exact ⟨d, u, hd, hu, huw, hv⟩
  · rintro ⟨d, u, hd, hu, huw, hv⟩
    exact ⟨_, getElem?_withSets_of_some hd, u.key, Pass.mem_writeKeys.2 ⟨u, hu, huw, rfl⟩, hv⟩

/-- a pass leads to another if a usage of it writes what a usage of the other reads -/
theorem feedsAt_withSets : feedsAt (passes.map Pass.withSets) i j = true ↔
    ∃ p u q v, passes[i]? = some p ∧ u ∈ p.usages ∧ u.writes = true ∧
      passes[j]? = some q ∧ v ∈ q.usages ∧ v.reads = true ∧ u.key = v.key := by
  rw [feedsAt_iff]
  constructor
  · rintro ⟨p, q, hp, hq, key, hwrite, hread⟩
    obtain ⟨d, hd, -, hw⟩ := getElem?_withSets hp
    obtain ⟨e, he, hr, -⟩ := getElem?_withSets hq
    rw [hw] at hwrite
    rw [hr] at hread
    obtain ⟨u, hu, huw, rfl⟩ := Pass.mem_writeKeys.1 hwrite
    obtain ⟨v, hv, hvr, hkey⟩ := Pass.mem_readKeys.1 hread
    exact ⟨d, u, e, v, hd, hu, huw, he, hv, hvr, hkey.symm⟩
  · rintro ⟨d, u, e, v, hd, hu, huw, he, hv, hvr, hkey⟩
    refine ⟨_, _, getElem?_withSets_of_some hd, getElem?_withSets_of_some he, u.key, ?_, ?_⟩
    · exact Pass.mem_writeKeys.2 ⟨u, hu, huw, rfl⟩
    · exact Pass.mem_readKeys.2 ⟨v, hv, hvr, hkey.symm⟩

/-- **The search finds the needed passes.** -/
theorem mem_neededPasses : i ∈ neededPasses g (passes.map Pass.withSets) ↔ Needed g.visible passes i := by
  rw [neededPasses, List.mem_filter, List.mem_range, List.length_map, List.contains_iff_mem]
  constructor
  · rintro ⟨-, hi⟩
    refine closure_least (S := Needed g.visible passes) ?_ ?_ ?_ i hi
    · intro j hj
      obtain ⟨p, u, hp, hu, huw, hv⟩ := mem_visibleWriters_withSets.1 hj
      exact .visible hp hu huw hv
    · intro j hj
      obtain ⟨p, u, hp, hu, huw, hv⟩ := mem_visibleWriters_withSets.1 hj
      exact .visible hp hu huw hv
    · intro i j _ hl hj
      obtain ⟨p, u, q, v, hp, hu, huw, hq, hv, hvr, hkey⟩ := feedsAt_withSets.1 hl
      exact .feeds hp hu huw hq hv hvr hkey hj
  · intro h
    refine ⟨h.lt_length, ?_⟩
    induction h with
    | visible hp hu huw hv =>
      exact subset_closure _ (mem_visibleWriters_withSets.2 ⟨_, _, hp, hu, huw, hv⟩)
    | feeds hp hu huw hq hv hvr hkey hj ih =>
      refine closed_closure (fun j hj => Or.inl hj) _ ih _ ?_ ?_
      · exact (List.getElem?_eq_some_iff.1 hp).1
      · exact feedsAt_withSets.2 ⟨_, _, _, _, hp, hu, huw, hq, hv, hvr, hkey⟩

end FrameGraph
