/-
One pass at a time: its barriers, said usage by usage.

Of the usages of a pass that have an address, the last one counts (`Pass.lastUse`): it gives the state the address is to
be in and, for textures, the aspect of the barrier. The earlier ones leave no trace, however their parts overlap.

- `Pass.ExactDiff`: what the barriers of a pass are, and what the records are afterwards. An address is covered by one
  barrier if the last usage that has it asks for another state than the tracked one, and by none otherwise. A barrier
  carries, for every address it covers, the tracked state and the state and tag of that usage.
- `synthesize_exactDiff`: a pass that asks for states its kind can use gets such barriers, whatever the tracked states
  are.
-/
import FrameGraph.Proofs.Outcomes

namespace FrameGraph

open ResourceKind

variable {k : ResourceKind}

/-! ## The usage that counts -/

/-- the last usage of the pass that has the address -/
def Pass.lastUse (p : Pass) (L : Layout) (k : ResourceKind) (n i : Nat) : Option (Use k) :=
  (L k n).bind fun b => (p.usesOf k n).findRev? fun u => k.reaches b u.handle.part i

theorem Pass.asks_eq_lastUse (p : Pass) (L : Layout) (n i : Nat) :
    p.asks L k n i = (p.lastUse L k n i).map Use.state := by
  rw [asks, lastUse, Option.map_bind]
  rfl

/-- the barriers of a pass, and what they lead to, are the exact difference between the tracked states and the states its
usages ask for -/
structure Pass.ExactDiff (p : Pass) (g g' : Registry) (batch : Batch) : Prop where
  /-- a barrier is on the native object of a registered resource, its part fits there, and it covers an address -/
  placed : ∀ (k : ResourceKind), ∀ b ∈ batch.get k,
    b.Named g ∧ b.Placed g.layout ∧ ∃ i, b.covers g.layout i = true
  /-- at each address it covers, it goes from the tracked state to that of the last usage, with the tag of that usage,
  or of the resource if the usage has none -/
  carried : ∀ (k : ResourceKind), ∀ b ∈ batch.get k, ∀ i, b.covers g.layout i = true →
    ∃ r u, (g.get k)[b.resource]? = some r ∧ p.lastUse g.layout k b.resource i = some u ∧
      r.tracker.stateAt i = some b.before ∧ b.after = u.state ∧ b.before ≠ b.after ∧ b.tag = u.tag.getD r.tag
  /-- an address whose last usage asks for another state than the tracked one is covered by exactly one barrier -/
  covered : ∀ (k : ResourceKind) (n i : Nat) (u : Use k), p.lastUse g.layout k n i = some u →
    g.world k n i ≠ some u.state →
      (batch.get k).countP (fun b => decide (b.resource = n) && b.covers g.layout i) = 1
  /-- an address that is in the state its last usage asks for, or has no usage, is covered by none -/
  spared : ∀ (k : ResourceKind) (n i : Nat),
    (∀ u, p.lastUse g.layout k n i = some u → g.world k n i = some u.state) →
      (batch.get k).countP (fun b => decide (b.resource = n) && b.covers g.layout i) = 0
  /-- of each record only the tracker changes: it has the states asked for, and the old ones where nothing is asked -/
  tracked : ∀ (k : ResourceKind) (n : Nat) (r : Resource k), (g.get k)[n]? = some r →
    ∃ t, (g'.get k)[n]? = some { r with tracker := t } ∧ t.bounds = r.tracker.bounds ∧
      ∀ i, t.stateAt i = ((p.lastUse g.layout k n i).map Use.state).or (r.tracker.stateAt i)
  /-- a resource the pass does not use is left alone -/
  untouched : ∀ (k : ResourceKind) (n : Nat), p.usesOf k n = [] → (g'.get k)[n]? = (g.get k)[n]?
  /-- there are no other records -/
  length : ∀ k, (g'.get k).length = (g.get k).length

/-! ## One resource -/

namespace Resource

variable {r : Resource k} {uses : List (Use k)} {index : Nat}

/-- a barrier covers an address -/
theorem exists_of_mem_meet (h : r.Ready) {b : Barrier k} (hb : b ∈ (r.meet index uses).2) :
    ∃ i, k.reaches r.bounds b.part i = true := by
  obtain ⟨native, hv⟩ := Option.isSome_iff_exists.1 h.backed
  rw [meet_eq hv] at hb
  obtain ⟨x, hx, rfl⟩ := List.mem_map.1 hb
  obtain ⟨i, hi⟩ := Tracker.exists_of_mem_serve h.valid hx
  rw [h.bounds] at hi
  exact ⟨i, hi⟩

/-- **A barrier carries what the last usage of each of its addresses asks for,** state and tag. -/
theorem lastUse_of_mem_meet (h : r.Ready) (hn : (∃ u ∈ uses, k.Proper r.bounds u.handle.part) → k.Numbered r.bounds)
    {b : Barrier k} (hb : b ∈ (r.meet index uses).2) {i : Nat} (hi : k.reaches r.bounds b.part i = true) :
    ∃ u, (uses.findRev? fun u => k.reaches r.bounds u.handle.part i) = some u ∧ b.after = u.state ∧
      b.tag = u.tag.getD r.tag := by
  obtain ⟨native, hv⟩ := Option.isSome_iff_exists.1 h.backed
  rw [meet_eq hv] at hb
  obtain ⟨⟨w, c⟩, hx, rfl⟩ := List.mem_map.1 hb
  rw [← h.bounds] at hi
  have hw := Tracker.want_of_mem_serve h.valid (tiles_demand h hn) hx hi
  rw [wantAt_demand, h.bounds] at hw
  obtain ⟨u, hu, rfl⟩ := Option.map_eq_some_iff.1 hw
  exact ⟨u, hu, rfl, rfl⟩

end Resource

/-! ## One pass -/

variable {g : Registry} {p : Pass}

/-- **The barriers worked out for a pass are the exact difference.** -/
theorem Pass.exactDiff_advance (h : g.Ready) (hc : p.Countable g.layout) :
    p.ExactDiff g (p.advance g) (p.barriersFrom g) := by
  have hmoves : ∀ k, Moves g.layout (g.world k) (p.grant g.layout g.world k) ((p.barriersFrom g).get k) :=
    moves_barriersFrom h hc
  have hready : ∀ {k : ResourceKind} {n : Nat} {r : Resource k}, (g.get k)[n]? = some r →
      r.Ready ∧ g.layout k n = some r.bounds := fun hr =>
    ⟨h _ _ (List.mem_of_getElem? hr), Registry.layout_of_getElem? hr⟩
  constructor
  case placed =>
    intro k b hb
    obtain ⟨r, hr, hm⟩ := mem_barriersFrom h hb
    obtain ⟨hrr, hl⟩ := hready hr
    obtain ⟨i, hi⟩ := Resource.exists_of_mem_meet hrr hm
    refine ⟨(of_mem_barriersFrom h hb).2, (hmoves k).placed b hb, i, ?_⟩
    rwa [Barrier.covers, hl]
  case carried =>
    intro k b hb i hi
    obtain ⟨r, hr, hm⟩ := mem_barriersFrom h hb
    obtain ⟨hrr, hl⟩ := hready hr
    have hbefore := ((hmoves k).of_mem hb hi).1
    rw [Registry.world, hr, Option.bind_some] at hbefore
    rw [Barrier.covers, hl] at hi
    obtain ⟨u, hu, hafter, htag⟩ := Resource.lastUse_of_mem_meet hrr (hc k _ _ hl) hm hi
    refine ⟨r, u, hr, ?_, hbefore, hafter, (hmoves k).changing b hb, htag⟩
    rwa [lastUse, hl]
  case covered =>
    intro k n i u hu hne
    refine (hmoves k).countP_covers_of_ne ?_
    rwa [grant, asks_eq_lastUse, hu]
  case spared =>
    intro k n i heq
    refine (hmoves k).countP_covers_of_eq ?_
    rw [grant, asks_eq_lastUse]
    cases hu : p.lastUse g.layout k n i with
    | none => rfl
    | some u => exact heq u hu
  case tracked =>
    intro k n r hr
    obtain ⟨hrr, hl⟩ := hready hr
    refine ⟨(r.meet n (p.usesOf k n)).1.tracker, ?_, ?_, fun i => ?_⟩
    · rw [advance_getElem?, hr, Option.map_some, ← Resource.meet_fst]
    · have hmeet : (r.meet n (p.usesOf k n)).1.Ready := Resource.ready_meet hrr
      exact hmeet.bounds.trans (Resource.bounds_meet.trans hrr.bounds.symm)
    · rw [lastUse, hl]
      exact Resource.stateAt_meet hrr (hc k n _ hl) i
  case untouched =>
    intro k n hu
    rw [advance_getElem?, hu]
    cases hr : (g.get k)[n]? with
    | none => rfl
    | some r => rw [Option.map_some, Resource.meet_nil]
  case length =>
    intro k
    rw [advance, Registry.mapRecords, Both.get_ofFun, List.length_mapIdx]

/-- the barriers of one pass whose usages its kind can use -/
theorem synthesize_singleton {passes : List Pass} {i : Nat} (h : g.Ready) (hp : passes[i]? = some p)
    (hl : ∀ u ∈ p.usages, p.kind.allows u.state = true) :
    synthesize passes g [i] = .ok (p.advance g, [(i, p.barriersFrom g)]) := by
  rw [synthesize_legal h hp (Pass.illegal?_eq_none.2 hl)]
  rfl

/-- **The barriers of a pass are the exact difference between the tracked states and the states its usages ask for.** The
tracked states can be any that fit the resources, all of which have native objects; the usages can be any that the kind
of the pass allows. Only a texture that the pass uses in part needs cell numbers that fit a word. -/
theorem synthesize_exactDiff {passes : List Pass} {i : Nat} (h : g.Ready) (hp : passes[i]? = some p)
    (hc : p.Countable g.layout) (hl : ∀ u ∈ p.usages, p.kind.allows u.state = true) :
    ∃ g' batch, synthesize passes g [i] = .ok (g', [(i, batch)]) ∧ g'.Ready ∧ p.ExactDiff g g' batch :=
  ⟨_, _, synthesize_singleton h hp hl, Pass.ready_advance h, Pass.exactDiff_advance h hc⟩

/-! ## Usages that overlap -/

theorem Registry.ready_importNative (h : g.Ready) (native : Nat) (d : k.Descriptor) (s : ResourceState) :
    (g.importNative native d s).1.Ready :=
  Every.register h fun _ => Resource.ready_new _ d _ s

/-- a depth and stencil texture of two levels and two layers, and a buffer of sixteen bytes -/
def importedPair : Registry :=
  let d := { TextureDescriptor.blank with mipCount := 2, layerCount := 2, format := .depth24PlusStencil8 }
  let g := (Registry.empty.importNative (k := .texture) 9 d .shaderResource).1
  (g.importNative (k := .buffer) 7 ⟨none, 16, 0#_, 0⟩ .common).1

/-- writes one level of the texture and the middle of the buffer -/
def partingPass : Pass :=
  { name := "part", kind := .graphics, callback := fun _ => []
    usages := [⟨.texture, ⟨0, some (.mip 0)⟩, none, .depthWrite, .write⟩,
      ⟨.buffer, ⟨0, some ⟨4, 8⟩⟩, none, .copyDest, .write⟩] }

/-- reads one layer, then the depth of one level across it, and writes a cell that is written already; reads the front of
the buffer, and then writes from inside that to past the end -/
def overlappingPass : Pass :=
  { name := "overlap", kind := .graphics, callback := fun _ => []
    usages := [⟨.texture, ⟨0, some (.layer 0)⟩, none, .depthRead, .read⟩,
      ⟨.texture, ⟨0, some (.mip 1)⟩, some .depth, .copySource, .read⟩,
      ⟨.texture, ⟨0, some (.cell 0 1)⟩, some .stencil, .depthWrite, .write⟩,
      ⟨.buffer, ⟨0, some ⟨0, 8⟩⟩, none, .copySource, .read⟩,
      ⟨.buffer, ⟨0, some ⟨6, 100⟩⟩, none, .copyDest, .write⟩] }

/-- the overlapping usages are told apart cell by cell and byte by byte: one cell and six bytes need no barrier -/
theorem synthesize_exactDiff_overlapping :
    let g := partingPass.advance importedPair
    g.Ready ∧ overlappingPass.Countable g.layout ∧
      (∀ u ∈ overlappingPass.usages, overlappingPass.kind.allows u.state = true) ∧
      ∃ g' batch, synthesize [overlappingPass] g [0] = .ok (g', [(0, batch)]) ∧ g'.Ready ∧
        overlappingPass.ExactDiff g g' batch ∧
        batch.textures = [⟨0, 9, .depthWrite, .depthRead, .depthStencil, some (.cell 0 0)⟩,
          ⟨0, 9, .shaderResource, .copySource, .depth, some (.cell 1 0)⟩,
          ⟨0, 9, .shaderResource, .copySource, .depth, some (.cell 1 1)⟩] ∧
        batch.buffers = [⟨0, 7, .common, .copySource, (), some ⟨0, 4⟩⟩,
          ⟨0, 7, .copyDest, .copySource, (), some ⟨4, 2⟩⟩, ⟨0, 7, .common, .copyDest, (), some ⟨12, 4⟩⟩] := by
  intro g
  have hg : g.Ready := Pass.ready_advance
    (Registry.ready_importNative (Registry.ready_importNative Registry.every_empty _ _ _) _ _ _)
  have hc : overlappingPass.Countable g.layout := by
    intro k n b hl _
    cases k with
    | texture =>
      obtain ⟨r, hr, rfl⟩ := Option.map_eq_some_iff.1 hl
      have hcells : ∀ r ∈ g.textures, r.bounds.cells ≤ maxWord32 + 1 := by decide +kernel
      exact hcells r (List.mem_of_getElem? hr)
    | buffer => trivial
  have hallowed : ∀ u ∈ overlappingPass.usages, overlappingPass.kind.allows u.state = true := by decide
  have hp : [overlappingPass][0]? = some overlappingPass := rfl
  obtain ⟨g', batch, hs, hready, hdiff⟩ := synthesize_exactDiff hg hp hc hallowed
  refine ⟨hg, hc, hallowed, g', batch, hs, hready, hdiff, ?_⟩
  rw [synthesize_singleton hg hp hallowed] at hs
  cases hs
  decide +kernel

end FrameGraph
