/-
What a refused compile leaves of a graph.

Giving the resources objects goes through the records one after another, and resets each one before it asks for the next
object. When an object is refused, the records before that one are reset and the others are not. A graph with a resource
that still needs an object has no plan, so every tracker is as good as reset already; but the writers noted by an
earlier compile are still there.

- `backAll_refused`, `Registry.back_refused`: the records before the refused one are reset and backed, and it and those
  after it are left alone.
- `compile_refused`: a refused compile adds the objects made so far, and clears the writers of the records before the
  refused one. It leaves the graph as it was (`Graph.LeftAsIs`) if and only if those had none.
- `sibling_writers`: a compiled graph that gets another texture, which is refused: the texture before it loses its
  writers, and the buffer keeps them.
-/
import FrameGraph.Proofs.Lifecycle
import FrameGraph.Proofs.Retries

namespace FrameGraph

variable {k : ResourceKind} {σ : Type}

/-! ## Up to the refusal -/

namespace Resource

variable {dev : Device σ} {s s' : σ} {r q : Resource k} {rs rs' : List (Resource k)} {e : AllocationError}

/-- `q` is `r` reset, and needs no object -/
structure Passed (r q : Resource k) : Prop where
  reset : q = { r.fresh with backing := q.backing }
  backed : q.unbacked = false

theorem passed_of_back (hb : r.back dev s = (.ok q, s')) : r.Passed q.fresh := by
  unfold back at hb
  split at hb
  · split at hb
    · cases hb
      exact ⟨rfl, Bool.and_false _⟩
    · cases hb
  · rename_i hu
    cases hb
    exact ⟨rfl, Bool.eq_false_iff.2 hu⟩

/-- an object is refused only to a record that needs one, and the error names the record -/
theorem of_back_error (hb : r.back dev s = (.error e, s')) : r.unbacked = true ∧ e.kind = k ∧ e.name = r.name := by
  unfold back at hb
  split at hb
  · rename_i hu
    split at hb
    · cases hb
    · cases hb
      exact ⟨hu, rfl, rfl⟩
  · cases hb

/-- if no object is refused, every record is passed -/
theorem backAll_passed (hb : backAll dev s rs = (rs', none, s')) (i : Nat) : Option.Rel Passed rs[i]? rs'[i]? := by
  induction rs generalizing s rs' i with
  | nil =>
    cases hb
    exact .none
  | cons r rs ih =>
    obtain ⟨q, s₁, qs, hq, hqs, rfl⟩ := backAll_cons_eq_ok.1 hb
    cases i with
    | zero => exact .some (passed_of_back hq)
    | succ i => exact ih hqs i

/-- **The records before the refused one are passed,** and it and those after it are left alone. -/
theorem backAll_refused (hb : backAll dev s rs = (rs', some e, s')) :
    ∃ (n : Nat) (r : Resource k), rs[n]? = some r ∧ r.unbacked = true ∧ e.kind = k ∧ e.name = r.name ∧
      (∀ i < n, Option.Rel Passed rs[i]? rs'[i]?) ∧ ∀ i ≥ n, rs'[i]? = rs[i]? := by
  induction rs generalizing s rs' with
  | nil => cases hb
  | cons q rs ih =>
    unfold backAll at hb
    split at hb
    · rename_i hq
      cases hb
      obtain ⟨hu, hkind, hname⟩ := of_back_error hq
      exact ⟨0, q, rfl, hu, hkind, hname, fun i hi => absurd hi (Nat.not_lt_zero i), fun _ _ => rfl⟩
    · rename_i q' s₁ hq
      simp only [Prod.mk.injEq] at hb
      obtain ⟨rfl, he, rfl⟩ := hb
      obtain ⟨n, r, hr, hu, hkind, hname, hpassed, hleft⟩ := ih (Prod.ext rfl (Prod.ext he rfl))
      refine ⟨n + 1, r, hr, hu, hkind, hname, fun i hi => ?_, fun i hi => ?_⟩
      · cases i with
        | zero => exact .some (passed_of_back hq)
        | succ i => exact hpassed i (Nat.lt_of_succ_lt_succ hi)
      · cases i with
        | zero => exact absurd hi (Nat.not_succ_le_zero n)
        | succ i => exact hleft i (Nat.le_of_succ_le_succ hi)

end Resource

/-- textures are gone through before buffers, so if one is refused no buffer is passed -/
theorem Registry.back_refused {g g' : Registry} {dev : Device σ} {s s' : σ} {e : AllocationError}
    (hb : g.back dev s = (g', some e, s')) :
    ∃ refused r, g.record? refused = some r ∧ r.unbacked = true ∧ e.kind = refused.kind ∧ e.name = r.name ∧
      (∀ key : Key, key.Before refused → Option.Rel Resource.Passed (g.record? key) (g'.record? key)) ∧
      ∀ key : Key, ¬ key.Before refused → g'.record? key = g.record? key := by
  unfold back at hb
  split at hb
  · rename_i textures e' s₁ ht
    cases hb
    obtain ⟨n, r, hr, hu, hkind, hname, hpassed, hleft⟩ := Resource.backAll_refused ht
    refine ⟨⟨.texture, n⟩, r, hr, hu, hkind, hname, ?_, ?_⟩
    · rintro ⟨kind, i⟩ (⟨-, h⟩ | ⟨rfl, hi⟩)
      · cases h
      · exact hpassed i hi
    · rintro ⟨kind, i⟩ hk
      cases kind with
      | texture => exact hleft i (Nat.le_of_not_lt fun hi => hk (.inr ⟨rfl, hi⟩))
      | buffer => rfl
  · rename_i textures s₁ ht
    simp only [Prod.mk.injEq] at hb
    obtain ⟨rfl, he, rfl⟩ := hb
    obtain ⟨n, r, hr, hu, hkind, hname, hpassed, hleft⟩ := Resource.backAll_refused (Prod.ext rfl (Prod.ext he rfl))
    refine ⟨⟨.buffer, n⟩, r, hr, hu, hkind, hname, ?_, ?_⟩
    · rintro ⟨kind, i⟩ hk
      cases kind with
      | texture => exact Resource.backAll_passed ht i
      | buffer =>
        obtain ⟨h, -⟩ | ⟨-, hi⟩ := hk
        · cases h
        · exact hpassed i hi
    · rintro ⟨kind, i⟩ hk
      cases kind with
      | texture => exact absurd (.inl ⟨rfl, rfl⟩) hk
      | buffer => exact hleft i (Nat.le_of_not_lt fun hi => hk (.inr ⟨rfl, hi⟩))

/-! ## What a refused compile leaves -/

theorem Resource.Untouched.fresh_eq {r : Resource k} (h : r.Untouched) : r.fresh = { r with writers := [] } := by
  have hreset : r.tracker.reset r.initial = r.tracker := (congrArg (Tracker.reset · r.initial) h).trans h.symm
  rw [fresh, rewind, hreset]

theorem Resource.Coherent.backed {r : Resource k} (h : r.Coherent) (hu : r.unbacked = false) :
    r.backing.isSome = true := by
  cases hi : r.imported with
  | true => exact h.imported hi
  | false => rwa [unbacked, hi, Bool.not_false, Bool.true_and, Option.isNone_eq_false_iff] at hu

namespace Graph

variable {g g' : Graph} {dev : Device σ} {s s' : σ} {e : AllocationError} {calls : List (Key × CreateCall)}
  {refused key : Key}

/-- `g'` is `g` without a plan, with the objects made in some calls -/
structure LeftAsIs (g g' : Graph) (calls : List (Key × CreateCall)) : Prop where
  /-- nothing but the records can have changed -/
  rest : g' = { g with registry := g'.registry, compiled := false }
  /-- and no record but for its object -/
  records : ∀ key, g'.registry.record? key =
    (g.registry.record? key).map fun r => { r with backing := r.backing.or (madeFor calls key) }

/-- `g'` is `g` without a plan, with the objects made in some calls before one was refused, and without the writers of
the records before that -/
structure RefusedAt (g g' : Graph) (calls : List (Key × CreateCall)) (refused : Key) : Prop where
  /-- nothing but the records can have changed -/
  rest : g' = { g with registry := g'.registry, compiled := false }
  /-- the records before the refused one have lost their writers, and changed in nothing else but their objects -/
  passed : ∀ key : Key, key.Before refused → g'.registry.record? key =
    (g.registry.record? key).map fun r => { r with backing := r.backing.or (madeFor calls key), writers := [] }
  /-- each of them has an object -/
  backed : ∀ key : Key, key.Before refused → ∀ r, g'.registry.record? key = some r → r.backing.isSome = true
  /-- the refused one and those after it are as they were -/
  left : ∀ key : Key, ¬ key.Before refused → g'.registry.record? key = g.registry.record? key

/-- an untouched record that is passed changes in nothing but its object and its writers -/
theorem record?_of_passed (huntouched : g.registry.Untouched) (hmade : g.registry.Extends (madeFor calls) g'.registry)
    (hpassed : Option.Rel Resource.Passed (g.registry.record? key) (g'.registry.record? key)) :
    g'.registry.record? key =
      (g.registry.record? key).map fun r => { r with backing := r.backing.or (madeFor calls key), writers := [] } := by
  cases hr : g.registry.record? key with
  | none =>
    rw [hr] at hpassed
    generalize g'.registry.record? key = found at hpassed ⊢
    cases hpassed
    rfl
  | some r =>
    obtain ⟨q, hq, -, hb⟩ := hmade.kept key r hr
    rw [hr, hq] at hpassed
    cases hpassed with
    | some hpassed =>
      have hfresh := (huntouched key.kind r (List.mem_of_getElem? hr)).fresh_eq
      rw [hq, Option.map_some, hpassed.reset, hfresh, hb]

theorem backing_of_passed (hcoherent : g'.registry.Coherent) {q : Resource key.kind}
    (hq : g'.registry.record? key = some q)
    (hpassed : Option.Rel Resource.Passed (g.registry.record? key) (g'.registry.record? key)) :
    q.backing.isSome = true := by
  rw [hq] at hpassed
  generalize g.registry.record? key = found at hpassed
  cases hpassed with
  | some hpassed => exact (hcoherent key.kind q (List.mem_of_getElem? hq)).backed hpassed.backed

/-- a graph is left as it was if and only if there were no writers to lose -/
theorem RefusedAt.leftAsIs_iff (h : g.RefusedAt g' calls refused)
    (hmade : g.registry.Extends (madeFor calls) g'.registry) :
    g.LeftAsIs g' calls ↔
      ∀ key : Key, key.Before refused → ∀ r, g.registry.record? key = some r → r.writers = [] := by
  constructor
  · intro hleft key hk r hr
    have hsame := (h.passed key hk).symm.trans (hleft.records key)
    rw [hr, Option.map_some, Option.map_some, Option.some_inj] at hsame
    exact (congrArg Resource.writers hsame).symm
  · intro hwriters
    refine ⟨h.rest, fun key => ?_⟩
    by_cases hk : key.Before refused
    · rw [h.passed key hk]
      refine Option.map_congr fun r hr => ?_
      rw [← hwriters key hk r hr]
    · rw [h.left key hk]
      cases hr : g.registry.record? key with
      | none => rfl
      | some r =>
        -- nothing was made for a record that is as it was
        obtain ⟨q, hq, -, hb⟩ := hmade.kept key r hr
        rw [h.left key hk, hr, Option.some_inj] at hq
        rw [Option.map_some, ← hb, hq]

/-- **A refused compile adds the objects made so far, and clears the writers of the records before the refused one.** It
leaves the graph as it was if and only if those records had none. -/
theorem compile_refused (h : g.Built) (hc : g.compile dev s = .ok (g', .error e, s')) :
    ∃ refused r, g.registry.record? refused = some r ∧ r.imported = false ∧ r.backing = none ∧
      e.kind = refused.kind ∧ e.name = r.name ∧
      g.RefusedAt g' (g.creations dev s) refused ∧
      (g.LeftAsIs g' (g.creations dev s) ↔
        ∀ key : Key, key.Before refused → ∀ r, g.registry.record? key = some r → r.writers = []) := by
  have hidle := h.settled.idle_of_refused hc
  have hmade := extends_compile hc
  have hcoherent := (h.compile hc).coherent
  obtain ⟨registry, hb, rfl⟩ := exists_back_of_compile_error hc
  obtain ⟨refused, r, hr, hu, hkind, hname, hpassed, hleft⟩ := Registry.back_refused hb
  obtain ⟨himported, hbacking⟩ := Resource.unbacked_iff.1 hu
  have hat : g.RefusedAt _ (g.creations dev s) refused :=
    { rest := by rw [hidle.order]
      passed := fun key hk => record?_of_passed hidle.untouched hmade (hpassed key hk)
      backed := fun key hk q hq => backing_of_passed hcoherent hq (hpassed key hk)
      left := hleft }
  exact ⟨refused, r, hr, himported, hbacking, hkind, hname, hat, hat.leftAsIs_iff hmade⟩

/-- a device without memory -/
def exhausted : CountingDevice := ({} : CountingDevice).failAfter 0 .outOfMemory

/-- a graph with another texture -/
def oneMore (g : Graph) : Graph := g.declare (.create .texture TextureDescriptor.blank)

/-- the writers noted for a resource -/
def writersAt (g : Graph) (key : Key) : Option (List Nat) := (g.registry.record? key).map Resource.writers

theorem writersAt_of_leftAsIs (h : g.LeftAsIs g' calls) (key : Key) : g'.writersAt key = g.writersAt key := by
  rw [writersAt, h.records, Option.map_map]
  rfl

/-- a texture and a buffer that a pass writes are compiled; the texture that is added then is refused -/
theorem retried_refused : ∃ (g g' : Graph) (stats : Stats) (e : AllocationError) (s s' : CountingDevice),
    (ofDeclarations {} retried).compile CountingDevice.device {} = .ok (g, .ok stats, s) ∧
      g.oneMore.compile CountingDevice.device exhausted = .ok (g', .error e, s') ∧
      (g.oneMore.writersAt ⟨.texture, 0⟩ = some [0] ∧ g.oneMore.writersAt ⟨.buffer, 0⟩ = some [0]) ∧
      (g'.writersAt ⟨.texture, 0⟩ = some [] ∧ g'.writersAt ⟨.buffer, 0⟩ = some [0]) := by
  have h : (match (ofDeclarations {} retried).compile CountingDevice.device {} with
      | .ok (g, .ok _, _) =>
        match g.oneMore.compile CountingDevice.device exhausted with
        | .ok (g', .error _, _) =>
          decide ((g.oneMore.writersAt ⟨.texture, 0⟩ = some [0] ∧ g.oneMore.writersAt ⟨.buffer, 0⟩ = some [0]) ∧
            (g'.writersAt ⟨.texture, 0⟩ = some [] ∧ g'.writersAt ⟨.buffer, 0⟩ = some [0]))
        | _ => false
      | _ => false) = true := by decide +kernel
  split at h
  · rename_i g stats s hc
    split at h
    · rename_i g' e s' hc'
      exact ⟨g, g', stats, e, s, s', hc, hc', of_decide_eq_true h⟩
    · cases h
  · cases h

theorem built_oneMore {stats : Stats} {s : CountingDevice}
    (hc : (ofDeclarations {} retried).compile CountingDevice.device {} = .ok (g, .ok stats, s)) : g.oneMore.Built := by
  have hruns : (new {}).Runs retried [] (ofDeclarations {} retried) :=
    .declare _ (.declare _ (.declare _ (.declare _ .start)))
  exact ((hruns.built (.new _)).compile hc).declare _

/-- one texture is before the refused one, and it has writers to lose -/
theorem compile_refused_retried : ∃ (g g' : Graph) (stats : Stats) (e : AllocationError) (s s' : CountingDevice),
    (ofDeclarations {} retried).compile CountingDevice.device {} = .ok (g, .ok stats, s) ∧
      g.oneMore.compile CountingDevice.device exhausted = .ok (g', .error e, s') ∧
      ∃ refused r, g.oneMore.registry.record? refused = some r ∧ r.imported = false ∧ r.backing = none ∧
        e.kind = refused.kind ∧ e.name = r.name ∧
        g.oneMore.RefusedAt g' (g.oneMore.creations CountingDevice.device exhausted) refused ∧
        (g.oneMore.LeftAsIs g' (g.oneMore.creations CountingDevice.device exhausted) ↔
          ∀ key : Key, key.Before refused → ∀ r, g.oneMore.registry.record? key = some r → r.writers = []) := by
  obtain ⟨g, g', stats, e, s, s', hc, hc', -⟩ := retried_refused
  exact ⟨g, g', stats, e, s, s', hc, hc', compile_refused (built_oneMore hc) hc'⟩

/-- the texture before the refused one has lost its writers, and the buffer has not -/
theorem sibling_writers : ∃ (g g' : Graph) (stats : Stats) (e : AllocationError) (s s' : CountingDevice),
    (ofDeclarations {} retried).compile CountingDevice.device {} = .ok (g, .ok stats, s) ∧
      g.oneMore.Built ∧ g.oneMore.compile CountingDevice.device exhausted = .ok (g', .error e, s') ∧
      (g.oneMore.writersAt ⟨.texture, 0⟩ = some [0] ∧ g.oneMore.writersAt ⟨.buffer, 0⟩ = some [0]) ∧
      (g'.writersAt ⟨.texture, 0⟩ = some [] ∧ g'.writersAt ⟨.buffer, 0⟩ = some [0]) ∧
      ¬ g.oneMore.LeftAsIs g' (g.oneMore.creations CountingDevice.device exhausted) := by
  obtain ⟨g, g', stats, e, s, s', hc, hc', hbefore, hafter⟩ := retried_refused
  refine ⟨g, g', stats, e, s, s', hc, built_oneMore hc, hc', hbefore, hafter, fun hleft => ?_⟩
  have hsame := writersAt_of_leftAsIs hleft ⟨.texture, 0⟩
  rw [hbefore.1, hafter.1] at hsame
  cases hsame

end Graph

end FrameGraph
