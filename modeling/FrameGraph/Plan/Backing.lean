/-
Native objects for the graph's own resources.

Before anything else is planned, every resource that is neither imported nor backed gets an object from the device:
textures first, then buffers, in registration order. The first failure ends the walk. A record the walk has passed is as
it was before any pass and has no writers; the failing record and those after it are left alone.

- `backAll_done`: without a failure every record is reset and backed.
-/
import FrameGraph.Registry

namespace FrameGraph

variable {k : ResourceKind} {σ : Type}

namespace Resource

/-- the record before any pass, with no writers noted -/
def fresh (r : Resource k) : Resource k := { r.rewind with writers := [] }

/-- the resource still needs an object -/
def unbacked (r : Resource k) : Bool := !r.imported && r.backing.isNone

/-- the record with an object behind it -/
def back (dev : Device σ) (s : σ) (r : Resource k) : Except AllocationError (Resource k) × σ :=
  if r.unbacked then
    match dev.respond s ⟨k, r.descriptor⟩ with
    | (.ok a, s) => (.ok { r with backing := some a }, s)
    | (.error e, s) => (.error ⟨k, r.name, e⟩, s)
  else (.ok r, s)

/-- every record with an object behind it, up to the first failure -/
def backAll (dev : Device σ) (s : σ) : List (Resource k) → List (Resource k) × Option AllocationError × σ
  | [] => ([], none, s)
  | r :: rs =>
    match r.back dev s with
    | (.error e, s) => (r :: rs, some e, s)
    | (.ok r, s) =>
      let (rs, e, s) := backAll dev s rs
      (r.fresh :: rs, e, s)

end Resource

/-- every resource with an object behind it, textures before buffers, up to the first failure -/
def Registry.back (dev : Device σ) (s : σ) (g : Registry) : Registry × Option AllocationError × σ :=
  match Resource.backAll dev s g.textures with
  | (textures, some e, s) => (⟨textures, g.buffers⟩, some e, s)
  | (textures, none, s) =>
    let (buffers, e, s) := Resource.backAll dev s g.buffers
    (⟨textures, buffers⟩, e, s)

/-- without a failure every record is reset, and backed unless it is imported -/
theorem Resource.backAll_done (dev : Device σ) (s : σ) (rs : List (Resource k))
    (h : (Resource.backAll dev s rs).2.1 = none) :
    ∀ r ∈ (Resource.backAll dev s rs).1,
      (r.imported = true ∨ r.backing.isSome) ∧ r.tracker.content = .whole r.initial ∧ r.writers = [] := by
  induction rs generalizing s with
  | nil => simp [backAll]
  | cons r rs ih =>
    cases hb : r.back dev s with
    | mk answer s' =>
      cases answer with
      | error e => simp [backAll, hb] at h
      | ok r' =>
        simp only [backAll, hb] at h ⊢
        intro q hq
        rcases List.mem_cons.1 hq with rfl | hq
        · refine ⟨?_, rfl, rfl⟩
          unfold back at hb
          split at hb
          · split at hb
            · cases hb
              exact Or.inr rfl
            · cases hb
          · rename_i hu
            cases hb
            cases hi : r.imported <;> cases hx : r.backing <;> simp_all [unbacked, fresh, rewind]
        · exact ih s' h q hq

end FrameGraph
