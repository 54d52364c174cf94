/-
Moments that can change places.

A moment finds the world as it needs it when a batch of the executor is sound there, or when the callback of a pass finds
what the pass asks for (`Moment.Fine`). `Replayed` runs moments one after another, each of them fine, from one world to
another. A batch shifts the resources it has barriers on, and needs nothing else; a callback needs the resources its pass
uses. Two moments are independent when neither shifts what the other needs.

- `Moment.fine_congr`: a moment depends on nothing but the resources it needs.
- `Replayed.swap`: two independent moments that follow each other may change places.
- `Replayed.postpone`: a moment may be put off until after others it is independent of.
-/
import FrameGraph.Proofs.OneQueue

namespace FrameGraph

open ResourceKind

variable {k : ResourceKind} {g : Graph} {w w' : World}

/-! ## What moments need -/

/-- every address the pass uses is in the state of the last usage that has it -/
def Pass.Served (p : Pass) (L : Layout) (w : World) : Prop :=
  ∀ k n bounds, L k n = some bounds → ∀ a u,
    (p.usesOf k n).findRev? (fun u => k.reaches bounds u.handle.part a) = some u → w k n a = some u.state

namespace Moment

/-- the moment finds the world as it needs it -/
def Fine (g : Graph) (w : World) : Moment → Prop
  | own (.barriers batch) => batch.Sound g.registry.layout w
  | call i => ∀ p, g.passes[i]? = some p → p.Served g.registry.layout w
  | _ => True

/-- the moment is a batch with a barrier on the resource -/
def Shifts (m : Moment) (key : Key) : Prop := ∃ batch, m.batch? = some batch ∧ ∃ b ∈ batch.get key.kind, b.resource = key.index

/-- the moment shifts the resource, or calls a pass that uses it -/
def Needs (g : Graph) (m : Moment) (key : Key) : Prop :=
  m.Shifts key ∨ ∃ i p, m = call i ∧ g.passes[i]? = some p ∧ p.usesOf key.kind key.index ≠ []

/-- neither moment shifts what the other needs -/
def Independent (g : Graph) (m m' : Moment) : Prop :=
  ∀ key, ¬ (m.Shifts key ∧ m'.Needs g key) ∧ ¬ (m.Needs g key ∧ m'.Shifts key)

end Moment

/-- the states of a resource are the same in both worlds -/
def World.Agree (w w' : World) (key : Key) : Prop := w key.kind key.index = w' key.kind key.index

/-! ## Barriers and the resources they are on -/

section Barriers

variable {L : Layout} {s s' : States} {bs : List (Barrier k)} {n : Nat}

theorem Barrier.apply_of_ne {b : Barrier k} (h : b.resource ≠ n) : b.apply L s n = s n := by
  funext i
  exact if_neg fun e => h e.1

theorem Barrier.apply_congr (b : Barrier k) (h : s n = s' n) : b.apply L s n = b.apply L s' n := by
  funext i
  simp only [Barrier.apply, h]

/-- barriers leave other resources alone -/
theorem foldl_apply_of_ne (h : ∀ b ∈ bs, b.resource ≠ n) : bs.foldl (Barrier.apply L) s n = s n := by
  induction bs generalizing s with
  | nil => rfl
  | cons b bs ih =>
    obtain ⟨hb, h⟩ := List.forall_mem_cons.1 h
    rw [List.foldl_cons, ih h, Barrier.apply_of_ne hb]

/-- what barriers make of a resource depends on nothing else -/
theorem foldl_apply_congr (h : s n = s' n) :
    bs.foldl (Barrier.apply L) s n = bs.foldl (Barrier.apply L) s' n := by
  induction bs generalizing s s' with
  | nil => exact h
  | cons b bs ih => exact ih (b.apply_congr h)

/-- barriers replay if they do where their resources are in the same states -/
theorem Replays.congr (h : ∀ b ∈ bs, s b.resource = s' b.resource) (hr : Replays L s bs) : Replays L s' bs := by
  induction bs generalizing s s' with
  | nil => trivial
  | cons b bs ih =>
    obtain ⟨hb, h⟩ := List.forall_mem_cons.1 h
    exact ⟨fun i hi => hb ▸ hr.1 i hi, ih (fun c hc => b.apply_congr (h c hc)) hr.2⟩

end Barriers

namespace Moment

variable {m m' : Moment}

/-- the world after one moment -/
theorem afterAll_singleton (L : Layout) (w : World) (m : Moment) :
    w.afterAll L [m] = (m.batch?.map (w.apply L)).getD w := by
  rw [World.afterAll, List.filterMap_cons]
  cases m.batch? <;> rfl

/-- a moment leaves alone what it does not shift -/
theorem agree_after (L : Layout) (w : World) {key : Key} (h : ¬ m.Shifts key) : (w.afterAll L [m]).Agree w key := by
  rw [afterAll_singleton]
  cases hm : m.batch? with
  | none => rfl
  | some batch => exact foldl_apply_of_ne fun b hb e => h ⟨batch, hm, b, hb, e⟩

/-- what a moment makes of a resource depends on nothing else -/
theorem agree_congr {key : Key} (L : Layout) (m : Moment) (h : w.Agree w' key) :
    (w.afterAll L [m]).Agree (w'.afterAll L [m]) key := by
  rw [afterAll_singleton, afterAll_singleton]
  cases m.batch? with
  | none => exact h
  | some batch => exact foldl_apply_congr h

/-- **A moment depends on nothing but what it needs.** -/
theorem fine_congr (h : ∀ key, m.Needs g key → w.Agree w' key) (hm : m.Fine g w) : m.Fine g w' := by
  cases m with
  | own c =>
    cases c with
    | barriers batch =>
      obtain ⟨h1, h2, h3⟩ := hm
      refine ⟨fun k => Replays.congr (fun b hb => ?_) (h1 k), h2, h3⟩
      exact h ⟨k, b.resource⟩ (.inl ⟨batch, rfl, b, hb, rfl⟩)
    | _ => trivial
  | call i =>
    intro p hp k n bounds hl a u hu
    have hne : p.usesOf k n ≠ [] := by
      intro e
      rw [e] at hu
      cases hu
    have hagree : w k n = w' k n := h ⟨k, n⟩ (.inr ⟨i, p, rfl, hp, hne⟩)
    rw [← hagree]
    exact hm p hp k n bounds hl a u hu
  | asked c => trivial

theorem Independent.symm (h : m.Independent g m') : m'.Independent g m :=
  fun key => ⟨fun e => (h key).2 e.symm, fun e => (h key).1 e.symm⟩

/-- an independent moment before it makes no difference to a moment -/
theorem Independent.fine_iff (h : m.Independent g m') (w : World) :
    m'.Fine g (w.afterAll g.registry.layout [m]) ↔ m'.Fine g w := by
  have hagree : ∀ key, m'.Needs g key → (w.afterAll g.registry.layout [m]).Agree w key :=
    fun key hn => agree_after _ w fun hm => (h key).1 ⟨hm, hn⟩
  exact ⟨fine_congr hagree, fine_congr fun key hn => (hagree key hn).symm⟩

/-- independent moments lead to the same world in either order -/
theorem Independent.afterAll_comm (h : m.Independent g m') (w : World) :
    (w.afterAll g.registry.layout [m]).afterAll g.registry.layout [m'] =
      (w.afterAll g.registry.layout [m']).afterAll g.registry.layout [m] := by
  funext k n
  have hagree : ∀ {a b : Moment}, ¬ a.Shifts ⟨k, n⟩ →
      (w.afterAll g.registry.layout [b]).afterAll g.registry.layout [a] k n =
        (w.afterAll g.registry.layout [a]).afterAll g.registry.layout [b] k n := fun {a b} ha => by
    have hlast := agree_after g.registry.layout (w.afterAll g.registry.layout [b]) ha
    have hfirst := agree_congr g.registry.layout b (agree_after g.registry.layout w ha)
    exact hlast.trans hfirst.symm
  by_cases hm : m.Shifts ⟨k, n⟩
  · exact hagree fun e => (h ⟨k, n⟩).1 ⟨hm, .inl e⟩
  · exact (hagree hm).symm

end Moment

/-! ## One moment after another -/

/-- the moments one after another, each of them fine, lead from one world to another -/
def Replayed (g : Graph) : World → List Moment → World → Prop
  | w, [], w' => w = w'
  | w, m :: ms, w' => m.Fine g w ∧ Replayed g (w.afterAll g.registry.layout [m]) ms w'

theorem replayed_append {ms ns : List Moment} :
    Replayed g w (ms ++ ns) w' ↔ ∃ v, Replayed g w ms v ∧ Replayed g v ns w' := by
  induction ms generalizing w with
  | nil => exact ⟨fun h => ⟨w, rfl, h⟩, fun ⟨v, e, h⟩ => (show w = v from e) ▸ h⟩
  | cons m ms ih => simp only [List.cons_append, Replayed, ih, exists_and_left, and_assoc]

namespace Replayed

variable {m m' : Moment} {ms ns : List Moment}

/-- the moments lead where their batches do -/
theorem afterAll_eq (h : Replayed g w ms w') : w.afterAll g.registry.layout ms = w' := by
  induction ms generalizing w with
  | nil => exact h
  | cons m ms ih =>
    rw [← List.singleton_append, World.afterAll_append]
    exact ih h.2

/-- the batches among the moments are sound one after another -/
theorem consistent (h : Replayed g w ms w') : Consistent g.registry.layout w (ms.filterMap Moment.batch?) := by
  induction ms generalizing w with
  | nil => trivial
  | cons m ms ih =>
    obtain ⟨hm, h⟩ := h
    have hrest := ih h
    rw [Moment.afterAll_singleton] at hrest
    rw [List.filterMap_cons]
    cases hb : m.batch? with
    | none => rwa [hb] at hrest
    | some batch =>
      rw [hb] at hrest
      refine ⟨?_, hrest⟩
      cases m with
      | own c =>
        cases c with
        | barriers batch' =>
          obtain rfl : batch' = batch := Option.some.inj hb
          exact hm
        | _ => cases hb
      | _ => cases hb

/-- **Independent moments may change places.** -/
theorem swap (h : Replayed g w (m :: m' :: ms) w') (hi : m.Independent g m') : Replayed g w (m' :: m :: ms) w' := by
  obtain ⟨hm, hm', h⟩ := h
  refine ⟨(hi.fine_iff w).1 hm', (hi.symm.fine_iff w).2 hm, ?_⟩
  rwa [← hi.afterAll_comm w]

/-- **A moment may be put off until after others it is independent of.** -/
theorem postpone (h : Replayed g w (m :: (ms ++ ns)) w') (hi : ∀ m' ∈ ms, m.Independent g m') :
    Replayed g w (ms ++ m :: ns) w' := by
  induction ms generalizing w with
  | nil => exact h
  | cons m' ms ih =>
    obtain ⟨hm', hi⟩ := List.forall_mem_cons.1 hi
    obtain ⟨hfine, hrest⟩ := h.swap hm'
    exact ⟨hfine, ih hrest hi⟩

/-- moments that are neither batches nor calls lead nowhere -/
theorem idle (h : ∀ m ∈ ms, m.batch? = none ∧ m.call? = none) : Replayed g w ms w := by
  induction ms with
  | nil => rfl
  | cons m ms ih =>
    obtain ⟨⟨hb, hc⟩, h⟩ := List.forall_mem_cons.1 h
    refine ⟨?_, ?_⟩
    · cases m with
      | own c =>
        cases c with
        | barriers batch => cases hb
        | _ => trivial
      | call i => cases hc
      | asked c => trivial
    · rw [Moment.afterAll_singleton, hb]
      exact ih h

/-- a callback finds what its pass asks for -/
theorem served {i : Nat} {p : Pass} (h : Replayed g w (ms ++ .call i :: ns) w') (hp : g.passes[i]? = some p) :
    p.Served g.registry.layout (w.afterAll g.registry.layout ms) := by
  obtain ⟨v, h1, h2⟩ := replayed_append.1 h
  rw [h1.afterAll_eq]
  exact h2.1 p hp

end Replayed

end FrameGraph
