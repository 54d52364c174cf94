/-
Which addresses a part of a resource has.

A part is given by rectangles or spans that need not fit the resource; what counts is the set of addresses it has inside
the bounds (`reaches`: no part means everything). Cutting a part to the bounds does not change that set.

- `Measured`: the bounds a descriptor can have (`measured_bounds`). A texture has at least one level and one layer, and
  every count is a machine word.
- `Inside`: a part that fits and is not empty. `inside_of_region`: whatever is left after cutting is such a part.
- `reaches_of_region`, `reaches_of_region_none`: cutting loses and adds no address.
- `reaches_of_covers`: a part that covers the bounds has every address. `covers_of_holds`: the other way round.
- `exists_holds`: a part that fits has an address.
-/
import FrameGraph.Region.Kind
import Mathlib.Tactic

namespace FrameGraph.ResourceKind

variable {k : ResourceKind}

/-! ## Bounds and parts that fit -/

/-- bounds a descriptor can have -/
def Measured : (k : ResourceKind) → k.Bounds → Prop
  | texture, e => (0 < e.mips ∧ e.mips ≤ maxWord32) ∧ 0 < e.layers ∧ e.layers ≤ maxWord32
  | buffer, n => n ≤ maxWord64

/-- the part is not empty and lies inside the bounds -/
def Inside : (k : ResourceKind) → k.Bounds → k.Part → Prop
  | texture, e, r =>
    (0 < r.mipCount ∧ r.baseMip + r.mipCount ≤ e.mips) ∧ 0 < r.layerCount ∧ r.baseLayer + r.layerCount ≤ e.layers
  | buffer, n, r => 0 < r.size ∧ r.offset + r.size ≤ n

/-- the resource has address `i`, and so does the part of it, everything if none is given -/
def reaches (k : ResourceKind) (b : k.Bounds) (part : Option k.Part) (i : Nat) : Bool :=
  decide (i < k.size b) && part.all fun p => k.holds b p i

theorem measured_bounds (k : ResourceKind) (d : k.Descriptor) : k.Measured (k.bounds d) := by
  cases k with
  | texture =>
    have hm := d.mipCount.toNat_lt
    have hl := d.layerCount.toNat_lt
    simp only [Measured, bounds, TextureDescriptor.mipLevels, TextureDescriptor.arrayLayers, maxWord32]
    omega
  | buffer =>
    have hs : d.size.toNat < 2 ^ 64 := d.size.toNat_lt
    exact Nat.le_of_lt_succ hs

theorem reaches_eq_true_iff {b : k.Bounds} {part : Option k.Part} {i : Nat} :
    k.reaches b part i = true ↔ i < k.size b ∧ ∀ p, part = some p → k.holds b p i = true := by
  cases part <;> simp [reaches]

theorem lt_size_of_reaches {b : k.Bounds} {part : Option k.Part} {i : Nat} (h : k.reaches b part i = true) :
    i < k.size b :=
  (reaches_eq_true_iff.1 h).1

theorem reaches_none {b : k.Bounds} {i : Nat} : k.reaches b none i = decide (i < k.size b) := by
  simp [reaches]

theorem reaches_some {b : k.Bounds} {p : k.Part} {i : Nat} :
    k.reaches b (some p) i = (decide (i < k.size b) && k.holds b p i) := rfl

/-! ## Cells of a texture -/

/-- a cell number inside the texture is a level and a layer inside it -/
theorem cell_lt {e : Extent} {i : Nat} (h : i < e.cells) : i % e.mips < e.mips ∧ i / e.mips < e.layers := by
  unfold Extent.cells at h
  have hm : 0 < e.mips := by
    rcases Nat.eq_zero_or_pos e.mips with hz | hp
    · rw [hz, Nat.zero_mul] at h
      exact absurd h (Nat.not_lt_zero i)
    · exact hp
  exact ⟨Nat.mod_lt i hm, Nat.div_lt_of_lt_mul h⟩

/-- a level and a layer inside the texture have a cell number inside it -/
theorem cellIndex_lt {e : Extent} {mip layer : Nat} (hm : mip < e.mips) (hl : layer < e.layers) :
    e.cellIndex mip layer < e.cells := by
  unfold Extent.cellIndex Extent.cells
  calc mip + layer * e.mips < e.mips + layer * e.mips := Nat.add_lt_add_right hm _
    _ = (layer + 1) * e.mips := by ring
    _ ≤ e.layers * e.mips := Nat.mul_le_mul_right _ hl
    _ = e.mips * e.layers := Nat.mul_comm _ _

theorem cellIndex_mod {e : Extent} {mip layer : Nat} (hm : mip < e.mips) :
    e.cellIndex mip layer % e.mips = mip ∧ e.cellIndex mip layer / e.mips = layer := by
  unfold Extent.cellIndex
  have hp : 0 < e.mips := Nat.zero_lt_of_lt hm
  refine ⟨?_, ?_⟩
  · rw [Nat.add_mul_mod_self_right, Nat.mod_eq_of_lt hm]
  · rw [Nat.add_mul_div_right _ _ hp, Nat.div_eq_of_lt hm, Nat.zero_add]

theorem holds_texture {e : Extent} {r : Subresources} {i : Nat} :
    texture.holds e r i = true ↔
      (r.baseMip ≤ i % e.mips ∧ i % e.mips < r.baseMip + r.mipCount) ∧
        r.baseLayer ≤ i / e.mips ∧ i / e.mips < r.baseLayer + r.layerCount := by
  simp only [holds, Extent.holds, Subresources.contains, Bool.and_eq_true, decide_eq_true_eq]
  tauto

theorem holds_buffer {n : Nat} {r : ByteSpan} {i : Nat} :
    buffer.holds n r i = true ↔ r.offset ≤ i ∧ i < r.offset + r.size := by
  simp [holds, ByteSpan.contains]

/-! ## Cutting a part to the bounds -/

theorem inside_of_clamp {b : k.Bounds} {p c : k.Part} (h : k.clamp b p = some c) : k.Inside b c := by
  cases k with
  | texture =>
    obtain ⟨⟨h1, h2, h3, h4⟩, rfl⟩ := Subresources.clamp_eq_some_iff.1 h
    simp only [Inside, Subresources.ofMips]
    omega
  | buffer =>
    obtain ⟨⟨h1, h2⟩, rfl⟩ := ByteSpan.clamp_eq_some_iff.1 h
    simp only [Inside]
    omega

theorem holds_of_clamp {b : k.Bounds} {p c : k.Part} {i : Nat} (h : k.clamp b p = some c) (hi : i < k.size b) :
    k.holds b c i = k.holds b p i := by
  rw [Bool.eq_iff_iff]
  cases k with
  | texture =>
    obtain ⟨-, rfl⟩ := Subresources.clamp_eq_some_iff.1 h
    have hc := cell_lt hi
    rw [holds_texture, holds_texture]
    simp only [Subresources.ofMips]
    omega
  | buffer =>
    obtain ⟨-, rfl⟩ := ByteSpan.clamp_eq_some_iff.1 h
    have hn : i < b := hi
    rw [holds_buffer, holds_buffer]
    simp only
    omega

theorem holds_of_clamp_none {b : k.Bounds} {p : k.Part} {i : Nat} (h : k.clamp b p = none) (hi : i < k.size b) :
    k.holds b p i = false := by
  rw [Bool.eq_false_iff]
  intro hp
  cases k with
  | texture =>
    have hc := cell_lt hi
    rw [holds_texture] at hp
    simp only [clamp, Subresources.clamp] at h
    split at h
    · omega
    · cases h
  | buffer =>
    have hn : i < b := hi
    rw [holds_buffer] at hp
    simp only [clamp, ByteSpan.clamp] at h
    split at h
    · omega
    · cases h

theorem inside_of_everything {b : k.Bounds} {p : k.Part} (hb : k.Measured b) (h : k.everything b = some p) :
    k.Inside b p ∧ k.covers b p = true := by
  cases k with
  | texture =>
    obtain ⟨⟨h1, -⟩, h3, -⟩ := hb
    cases h
    simp [Inside, covers, Subresources.covers, Subresources.everything, Subresources.ofMips, h1, h3]
  | buffer =>
    simp only [everything] at h
    split at h
    · cases h
    · rename_i hz
      cases h
      refine ⟨⟨Nat.pos_of_ne_zero hz, Nat.le_of_eq (Nat.zero_add b)⟩, ?_⟩
      simp [covers, ByteSpan.covers]

theorem size_of_everything_none {b : k.Bounds} (h : k.everything b = none) : k.size b = 0 := by
  cases k with
  | texture => cases h
  | buffer =>
    simp only [everything] at h
    split at h
    · assumption
    · cases h

theorem inside_of_region {b : k.Bounds} {part : Option k.Part} {p : k.Part} (hb : k.Measured b)
    (h : k.region b part = some p) : k.Inside b p := by
  cases part with
  | none => exact (inside_of_everything hb h).1
  | some q => exact inside_of_clamp h

/-! ## Parts with every address -/

theorem holds_of_covers {b : k.Bounds} {p : k.Part} {i : Nat} (h : k.covers b p = true) (hi : i < k.size b) :
    k.holds b p i = true := by
  cases k with
  | texture =>
    have hc := cell_lt hi
    simp only [covers, Subresources.covers, Bool.and_eq_true, beq_iff_eq, decide_eq_true_eq] at h
    rw [holds_texture, h.1.1.1, h.1.1.2, Nat.zero_add, Nat.zero_add]
    exact ⟨⟨Nat.zero_le _, hc.1.trans_le h.1.2⟩, Nat.zero_le _, hc.2.trans_le h.2⟩
  | buffer =>
    have hn : i < b := hi
    simp only [covers, ByteSpan.covers, Bool.and_eq_true, beq_iff_eq, decide_eq_true_eq] at h
    rw [holds_buffer]
    omega

/-- a part that fits and has every address covers the bounds: it has the first one and the last one -/
theorem covers_of_holds {b : k.Bounds} {p : k.Part} (hp : k.Inside b p) (h : ∀ i < k.size b, k.holds b p i = true) :
    k.covers b p = true := by
  cases k with
  | texture =>
    obtain ⟨⟨h1, h2⟩, h3, h4⟩ := hp
    have hcell : ∀ mip layer, mip < b.mips → layer < b.layers →
        (p.baseMip ≤ mip ∧ mip < p.baseMip + p.mipCount) ∧ p.baseLayer ≤ layer ∧ layer < p.baseLayer + p.layerCount := by
      intro mip layer hm hl
      obtain ⟨e1, e2⟩ := @cellIndex_mod b mip layer hm
      have hholds := holds_texture.1 (h (b.cellIndex mip layer) (cellIndex_lt hm hl))
      rwa [e1, e2] at hholds
    have hfirst := hcell 0 0 (by omega) (by omega)
    have hlast := hcell (b.mips - 1) (b.layers - 1) (by omega) (by omega)
    simp only [covers, Subresources.covers, Bool.and_eq_true, beq_iff_eq, decide_eq_true_eq]
    omega
  | buffer =>
    obtain ⟨h1, h2⟩ := hp
    have hn : (0 : Nat) < b := by omega
    have hfirst := holds_buffer.1 (h 0 hn)
    have hlast := holds_buffer.1 (h (b - 1) (Nat.sub_lt hn Nat.one_pos))
    simp only [covers, ByteSpan.covers, Bool.and_eq_true, beq_iff_eq, decide_eq_true_eq]
    omega

theorem reaches_of_covers {b : k.Bounds} {p : k.Part} (h : k.covers b p = true) (i : Nat) :
    k.reaches b (some p) i = k.reaches b none i := by
  rw [reaches_some, reaches_none]
  by_cases hi : i < k.size b
  · rw [holds_of_covers h hi, Bool.and_true]
  · rw [decide_eq_false hi, Bool.false_and]

theorem exists_holds {b : k.Bounds} {p : k.Part} (h : k.Inside b p) : ∃ i, i < k.size b ∧ k.holds b p i = true := by
  cases k with
  | texture =>
    obtain ⟨⟨h1, h2⟩, h3, h4⟩ := h
    have hm : p.baseMip < b.mips := by omega
    refine ⟨b.cellIndex p.baseMip p.baseLayer, cellIndex_lt hm (by omega), ?_⟩
    obtain ⟨e1, e2⟩ := @cellIndex_mod b p.baseMip p.baseLayer hm
    rw [holds_texture, e1, e2]
    omega
  | buffer =>
    obtain ⟨h1, h2⟩ := h
    have hn : p.offset < b := by omega
    refine ⟨p.offset, hn, ?_⟩
    rw [holds_buffer]
    omega

/-! ## Cutting and reaching -/

theorem reaches_of_region {b : k.Bounds} {part : Option k.Part} {p : k.Part} (hb : k.Measured b)
    (h : k.region b part = some p) (i : Nat) : k.reaches b (some p) i = k.reaches b part i := by
  cases part with
  | none => exact reaches_of_covers (inside_of_everything hb h).2 i
  | some q =>
    rw [reaches_some, reaches_some]
    by_cases hi : i < k.size b
    · rw [holds_of_clamp h hi]
    · rw [decide_eq_false hi, Bool.false_and, Bool.false_and]

theorem reaches_of_region_none {b : k.Bounds} {part : Option k.Part} (h : k.region b part = none) (i : Nat) :
    k.reaches b part i = false := by
  cases part with
  | none => rw [reaches_none, size_of_everything_none h, decide_eq_false (Nat.not_lt_zero i)]
  | some q =>
    rw [reaches_some]
    by_cases hi : i < k.size b
    · rw [holds_of_clamp_none h hi, Bool.and_false]
    · rw [decide_eq_false hi, Bool.false_and]

end FrameGraph.ResourceKind
