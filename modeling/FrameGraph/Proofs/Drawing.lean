/-
What can be read back from the Graphviz text of a graph.

The text is read from its start. Each piece of it tells its value, whatever text follows, as long as the piece ends where
that text starts: a number ends before a character that is no digit, a word before one that is no letter, and a name
before a quote or a line break that is written out. An escaped name has a quote or a backslash only behind a backslash,
so neither of these two starts within it, and names can be anything.

- `escape_eq_replacements`: escaping doubles the backslashes first and marks the quotes after that.
- `escape_inj`: an escaped name is read back.
- `passLine_inj`, `resourceLine_inj`, `Arrow.line_inj`: so is what a line shows.
- `lines_inj`: so are the lines of a list, as what follows them starts like none of them.
- `occurrences_arrowText`: an arrow has one line among those of the arrows when a usage calls for it, and else no line.
- `toDot_determines`: graphs with the same text agree on all that is shown of their passes and resources, and on who
  writes and who reads what.
-/
import FrameGraph.Dot
import FrameGraph.Proofs.Synthesis
import Mathlib.Data.List.Count
import Mathlib.Data.List.Nodup

namespace FrameGraph

namespace Dot

variable {k : ResourceKind} {r s : List Char}

/-! ## Words and numbers -/

/-- words of some characters that end at another one are read back -/
theorem word_inj {q : Char → Bool} {v w : List Char} (hv : ∀ c ∈ v, q c = true) (hw : ∀ c ∈ w, q c = true)
    (hr : ∀ c ∈ r.head?, q c = false) (hs : ∀ c ∈ s.head?, q c = false) (h : v ++ r = w ++ s) : v = w ∧ r = s := by
  have htake : ∀ {v r : List Char}, (∀ c ∈ v, q c = true) → (∀ c ∈ r.head?, q c = false) →
      (v ++ r).takeWhile q = v := by
    intro v r hv hr
    rw [List.takeWhile_append_of_pos hv]
    cases r with
    | nil => simp
    | cons c r => simp [hr c rfl]
  have hword : v = w := by
    rw [← htake hv hr, h, htake hw hs]
  subst hword
  exact ⟨rfl, List.append_cancel_left h⟩

/-- a number ends at the first character that is no digit -/
theorem toDigits_inj {m n : Nat} (hr : ∀ c ∈ r.head?, c.isDigit = false) (hs : ∀ c ∈ s.head?, c.isDigit = false)
    (h : Nat.toDigits 10 m ++ r = Nat.toDigits 10 n ++ s) : m = n ∧ r = s := by
  have hdigits : ∀ n : Nat, ∀ c ∈ Nat.toDigits 10 n, c.isDigit = true := by
    intro n c hc
    exact Nat.isDigit_of_mem_toDigits (by decide) (by decide) hc
  obtain ⟨hword, hrest⟩ := word_inj (hdigits m) (hdigits n) hr hs h
  refine ⟨?_, hrest⟩
  calc m = Nat.ofDigitChars 10 (Nat.toDigits 10 m) 0 := Nat.ofDigitChars_ten_toDigits.symm
    _ = Nat.ofDigitChars 10 (Nat.toDigits 10 n) 0 := by rw [hword]
    _ = n := Nat.ofDigitChars_ten_toDigits

/-- the kind of a pass stands in brackets -/
theorem kindName_inj {a b : PassKind} (h : a.name.toList ++ ')' :: r = b.name.toList ++ ')' :: s) : a = b ∧ r = s := by
  cases a <;> cases b <;> simp_all [PassKind.name]

theorem stateName_inj {a b : ResourceState} (h : a.name.toList ++ '"' :: r = b.name.toList ++ '"' :: s) :
    a = b ∧ r = s := by
  have hletters : ∀ a : ResourceState, ∀ c ∈ a.name.toList, (c != '"') = true := by
    intro a
    cases a <;> simp [ResourceState.name]
  obtain ⟨hword, hrest⟩ := word_inj (hletters a) (hletters b) (by simp) (by simp) h
  refine ⟨?_, List.tail_eq_of_cons_eq hrest⟩
  revert hword
  cases a <;> cases b <;> decide

/-! ## Names -/

/-- a text that ends a name: it starts with a quote, or with a line break that is written out -/
def EndsName (r : List Char) : Prop := (∃ t, r = '"' :: t) ∨ ∃ t, r = '\\' :: 'n' :: t

theorem EndsName.head_not_digit (h : EndsName r) : ∀ c ∈ r.head?, c.isDigit = false := by
  rcases h with ⟨t, rfl⟩ | ⟨t, rfl⟩ <;> simp

theorem not_endsName_escapeChar (c : Char) (t : List Char) : ¬ EndsName (escapeChar c ++ t) := by
  rintro (⟨u, h⟩ | ⟨u, h⟩) <;> unfold escapeChar at h <;> split at h <;> simp_all

theorem escapeChar_inj {c d : Char} (h : escapeChar c ++ r = escapeChar d ++ s) : c = d ∧ r = s := by
  unfold escapeChar at h
  split at h <;> split at h <;> rename_i hc hd <;> simp only [List.cons_append, List.nil_append, List.cons.injEq] at h
  · exact h.2
  · exact absurd (Or.inl h.1.symm) hd
  · exact absurd (Or.inl h.1) hc
  · exact h

/-- escaping a name is two replacements, one after the other: backslashes are doubled, then quotes get one -/
theorem escape_eq_replacements (name : String) :
    (escape name).toList = (name.toList.flatMap fun c => if c = '\\' then ['\\', '\\'] else [c]).flatMap fun c =>
      if c = '"' then ['\\', '"'] else [c] := by
  rw [escape, String.toList_ofList, List.flatMap_assoc]
  refine List.flatMap_congr fun c _ => ?_
  by_cases hbackslash : c = '\\'
  · subst hbackslash
    rfl
  · by_cases hquote : c = '"' <;> simp [escapeChar, hbackslash, hquote]

/-- **Escaped names are read back,** whatever characters they have. -/
theorem escape_inj {a b : String} (hr : EndsName r) (hs : EndsName s)
    (h : (escape a).toList ++ r = (escape b).toList ++ s) : a = b ∧ r = s := by
  have hchars : ∀ {as bs : List Char}, as.flatMap escapeChar ++ r = bs.flatMap escapeChar ++ s → as = bs ∧ r = s := by
    intro as bs h
    induction as generalizing bs with
    | nil =>
      cases bs with
      | nil => exact ⟨rfl, h⟩
      | cons d bs =>
        rw [List.flatMap_cons, List.append_assoc] at h
        rw [List.flatMap_nil, List.nil_append] at h
        exact absurd (h ▸ hr) (not_endsName_escapeChar d _)
    | cons c as ih =>
      cases bs with
      | nil =>
        rw [List.flatMap_cons, List.append_assoc] at h
        rw [List.flatMap_nil, List.nil_append] at h
        exact absurd (h ▸ hs) (not_endsName_escapeChar c _)
      | cons d bs =>
        rw [List.flatMap_cons, List.flatMap_cons, List.append_assoc, List.append_assoc] at h
        obtain ⟨rfl, hrest⟩ := escapeChar_inj h
        obtain ⟨rfl, hend⟩ := ih hrest
        exact ⟨rfl, hend⟩
  rw [escape, escape, String.toList_ofList, String.toList_ofList] at h
  obtain ⟨hname, hrest⟩ := hchars h
  exact ⟨String.toList_inj.1 hname, hrest⟩

/-! ## Labels -/

/-- what a label says of a resource that is imported -/
def importLabel (imported : Bool) : List Char := if imported then "\\n(imported)".toList else []

/-- what a label says of the heap -/
def heapLabel (heap : Option Nat) : List Char := (heap.map fun heap => "\\nheap ".toList ++ Nat.toDigits 10 heap).getD []

/-- what a label says of the export state -/
def exportLabel (exported : Option ResourceState) : List Char :=
  (exported.map fun state => "\\nexport ".toList ++ state.name.toList).getD []

theorem exportLabel_inj {e f : Option ResourceState}
    (h : exportLabel e ++ '"' :: r = exportLabel f ++ '"' :: s) : e = f ∧ r = s := by
  cases e <;> cases f
  case none.none => exact ⟨rfl, List.tail_eq_of_cons_eq h⟩
  case none.some => simp [exportLabel] at h
  case some.none => simp [exportLabel] at h
  case some.some a b =>
    have hname : a.name.toList ++ '"' :: r = b.name.toList ++ '"' :: s := by simpa [exportLabel] using h
    simpa using stateName_inj hname

theorem endsName_exportLabel (e : Option ResourceState) (t : List Char) : EndsName (exportLabel e ++ '"' :: t) := by
  cases e <;> simp [exportLabel, EndsName]

theorem heapLabel_inj {a b : Option Nat} {e f : Option ResourceState}
    (h : heapLabel a ++ (exportLabel e ++ '"' :: r) = heapLabel b ++ (exportLabel f ++ '"' :: s)) :
    a = b ∧ e = f ∧ r = s := by
  cases a <;> cases b
  case none.none => exact ⟨rfl, exportLabel_inj h⟩
  case none.some => cases e <;> simp [heapLabel, exportLabel] at h
  case some.none => cases f <;> simp [heapLabel, exportLabel] at h
  case some.some m n =>
    have hnumber : Nat.toDigits 10 m ++ (exportLabel e ++ '"' :: r) = Nat.toDigits 10 n ++ (exportLabel f ++ '"' :: s) := by
      simpa [heapLabel] using h
    obtain ⟨rfl, hrest⟩ :=
      toDigits_inj (endsName_exportLabel e r).head_not_digit (endsName_exportLabel f s).head_not_digit hnumber
    exact ⟨rfl, exportLabel_inj hrest⟩

theorem endsName_heapLabel (a : Option Nat) (e : Option ResourceState) (t : List Char) :
    EndsName (heapLabel a ++ (exportLabel e ++ '"' :: t)) := by
  cases a with
  | none => exact endsName_exportLabel e t
  | some n => simp [heapLabel, EndsName]

theorem importLabel_inj {i j : Bool} {a b : Option Nat} {e f : Option ResourceState}
    (h : importLabel i ++ (heapLabel a ++ (exportLabel e ++ '"' :: r)) =
      importLabel j ++ (heapLabel b ++ (exportLabel f ++ '"' :: s))) : i = j ∧ a = b ∧ e = f ∧ r = s := by
  cases i <;> cases j
  case false.false => exact ⟨rfl, heapLabel_inj h⟩
  case false.true => cases a <;> cases e <;> simp [importLabel, heapLabel, exportLabel] at h
  case true.false => cases b <;> cases f <;> simp [importLabel, heapLabel, exportLabel] at h
  case true.true => exact ⟨rfl, heapLabel_inj (List.append_cancel_left h)⟩

theorem endsName_importLabel (i : Bool) (a : Option Nat) (e : Option ResourceState) (t : List Char) :
    EndsName (importLabel i ++ (heapLabel a ++ (exportLabel e ++ '"' :: t))) := by
  cases i with
  | false => exact endsName_heapLabel a e t
  | true => simp [importLabel, EndsName]

/-! ## Lines -/

/-- the size a line shows: buffers have one -/
def shownSize : (k : ResourceKind) → Resource k → Option Nat
  | .texture, _ => none
  | .buffer, r => some r.bounds

/-- what the line of a pass shows -/
def passFacts (p : Pass) : String × PassKind × Bool := (p.name, p.kind, p.plan.culled)

/-- what the line of a resource shows -/
def resourceFacts (r : Resource k) : String × Option Nat × Bool × Option Nat × Option ResourceState :=
  (r.name, shownSize k r, r.imported, r.heap, r.exported)

/-- the line of a pass tells its name, its kind and whether it is culled -/
theorem passLine_inj {i : Nat} {p q : Pass} (h : (passLine i p).toList ++ r = (passLine i q).toList ++ s) :
    passFacts p = passFacts q ∧ r = s := by
  -- `delta`, as the equation lemma of a line takes seconds to make
  delta passLine at h
  simp only [String.toList_append, List.append_assoc] at h
  have h := List.append_cancel_left (List.append_cancel_left (List.append_cancel_left h))
  obtain ⟨hname, h⟩ := escape_inj (by simp [EndsName]) (by simp [EndsName]) h
  obtain ⟨hkind, h⟩ := kindName_inj (by simpa using h)
  have hculled : p.plan.culled = q.plan.culled := by
    revert h
    cases p.plan.culled <;> cases q.plan.culled <;> simp
  simp only [hculled, hkind] at h
  refine ⟨?_, ?_⟩
  · rw [passFacts, passFacts, hname, hkind, hculled]
  · simpa using h

theorem sizeLabel_inj {a b : Resource k} (h : (sizeLabel k a).toList ++ r = (sizeLabel k b).toList ++ s) :
    shownSize k a = shownSize k b ∧ r = s := by
  cases k with
  | texture => exact ⟨rfl, h⟩
  | buffer =>
    have hbytes : ∀ (a : Resource .buffer) (r : List Char), (sizeLabel .buffer a).toList ++ r =
        "\\n".toList ++ (Nat.toDigits 10 a.bounds ++ (" bytes".toList ++ r)) := by
      intro a r
      simp [sizeLabel]
    rw [hbytes, hbytes] at h
    obtain ⟨hbounds, hrest⟩ := toDigits_inj (by simp) (by simp) (List.append_cancel_left h)
    exact ⟨congrArg some hbounds, List.append_cancel_left hrest⟩

/-- what follows the label in the line of a resource, up to the end of the line -/
def attributes (k : ResourceKind) (imported shared : Bool) : List Char :=
  ", ".toList ++ (look k).toList ++ (if imported then ", peripheries=2".toList else [])
    ++ (if shared then ", color=red".toList else []) ++ "];\n".toList

/-- the line of a resource, with the parts of its label apart -/
theorem toList_resourceLine (i : Nat) (a : Resource k) :
    (resourceLine k i a).toList ++ r =
      ("  " ++ resourceNode ⟨k, i⟩ ++ " [label=\"").toList ++ ((escape a.name).toList ++ ((sizeLabel k a).toList ++
        (importLabel a.imported ++ (heapLabel a.heap ++ (exportLabel a.exported ++ '"' ::
          (attributes k a.imported a.heap.isSome ++ r)))))) := by
  have himport : (if a.imported then "\\n(imported)" else "").toList = importLabel a.imported := by
    cases a.imported <;> rfl
  have hheap : ((a.heap.map fun heap => "\\nheap " ++ toString heap).getD "").toList = heapLabel a.heap := by
    cases a.heap <;> simp [heapLabel]
  have hexport : ((a.exported.map fun state => "\\nexport " ++ state.name).getD "").toList = exportLabel a.exported := by
    cases a.exported <;> simp [exportLabel]
  have hquote : "\", ".toList = '"' :: ", ".toList := rfl
  delta resourceLine attributes
  simp only [String.toList_append, List.append_assoc, himport, hheap, hexport, hquote, apply_ite String.toList,
    String.toList_empty, List.cons_append]

/-- the line of a resource tells all its facts -/
theorem resourceLine_inj {i : Nat} {a b : Resource k}
    (h : (resourceLine k i a).toList ++ r = (resourceLine k i b).toList ++ s) :
    resourceFacts a = resourceFacts b ∧ r = s := by
  rw [toList_resourceLine, toList_resourceLine] at h
  have h := List.append_cancel_left h
  have hends : ∀ (a : Resource k) (r : List Char), EndsName ((sizeLabel k a).toList ++ (importLabel a.imported ++
      (heapLabel a.heap ++ (exportLabel a.exported ++ '"' :: r)))) := by
    intro a r
    cases k with
    | texture => exact endsName_importLabel _ _ _ _
    | buffer => simp [sizeLabel, EndsName]
  obtain ⟨hname, h⟩ := escape_inj (hends a _) (hends b _) h
  obtain ⟨hsize, h⟩ := sizeLabel_inj h
  obtain ⟨himported, hheap, hexported, h⟩ := importLabel_inj h
  rw [himported, hheap] at h
  refine ⟨?_, List.append_cancel_left h⟩
  rw [resourceFacts, resourceFacts, hname, hsize, himported, hheap, hexported]

theorem passNode_inj {i j : Nat} (hr : ∀ c ∈ r.head?, c.isDigit = false) (hs : ∀ c ∈ s.head?, c.isDigit = false)
    (h : (passNode i).toList ++ r = (passNode j).toList ++ s) : i = j ∧ r = s := by
  simp only [passNode, String.toList_append, List.append_assoc] at h
  exact toDigits_inj hr hs (by simpa using h)

theorem resourceNode_inj {a b : Key} (hr : ∀ c ∈ r.head?, c.isDigit = false) (hs : ∀ c ∈ s.head?, c.isDigit = false)
    (h : (resourceNode a).toList ++ r = (resourceNode b).toList ++ s) : a = b ∧ r = s := by
  obtain ⟨kind, m⟩ := a
  obtain ⟨kind', n⟩ := b
  cases kind <;> cases kind'
  case texture.texture =>
    obtain ⟨rfl, hrest⟩ := toDigits_inj hr hs (by simpa [resourceNode] using h)
    exact ⟨rfl, hrest⟩
  case buffer.buffer =>
    obtain ⟨rfl, hrest⟩ := toDigits_inj hr hs (by simpa [resourceNode] using h)
    exact ⟨rfl, hrest⟩
  case texture.buffer => simp [resourceNode] at h
  case buffer.texture => simp [resourceNode] at h

theorem Arrow.line_inj {a b : Arrow} (h : a.line.toList ++ r = b.line.toList ++ s) : a = b ∧ r = s := by
  have hnode : ∀ key : Key, ∀ (i : Nat) (r s : List Char), (resourceNode key).toList ++ r ≠ (passNode i).toList ++ s := by
    intro key i r s h
    obtain ⟨kind, n⟩ := key
    cases kind <;> simp [resourceNode, passNode] at h
  obtain ⟨i, writes, key⟩ := a
  obtain ⟨j, writes', key'⟩ := b
  cases writes <;> cases writes' <;> simp only [Arrow.line, String.toList_append, List.append_assoc, if_true,
    Bool.false_eq_true, if_false] at h <;> have htail := List.append_cancel_left h
  case false.false =>
    obtain ⟨hkey, harrow⟩ := resourceNode_inj (by simp) (by simp) htail
    obtain ⟨hpass, hend⟩ := passNode_inj (by simp) (by simp) (List.append_cancel_left harrow)
    exact ⟨by rw [hkey, hpass], List.append_cancel_left hend⟩
  case false.true => exact absurd htail (hnode _ _ _ _)
  case true.false => exact absurd htail.symm (hnode _ _ _ _)
  case true.true =>
    obtain ⟨hpass, harrow⟩ := passNode_inj (by simp) (by simp) htail
    obtain ⟨hkey, hend⟩ := resourceNode_inj (by simp) (by simp) (List.append_cancel_left harrow)
    exact ⟨by rw [hkey, hpass], List.append_cancel_left hend⟩

/-! ## Lists of lines -/

section Lists

variable {α β : Type} (line : Nat → α → String) (view : α → β) {as bs : List α}

/-- lines one below the other, one for each entry, are read back when each of them is and what follows starts like none -/
theorem lines_inj
    (hline : ∀ i a b r s, (line i a).toList ++ r = (line i b).toList ++ s → view a = view b ∧ r = s)
    (hr : ∀ i a t, r ≠ (line i a).toList ++ t) (hs : ∀ i a t, s ≠ (line i a).toList ++ t)
    (h : (String.join (as.mapIdx line)).toList ++ r = (String.join (bs.mapIdx line)).toList ++ s) :
    as.map view = bs.map view ∧ r = s := by
  -- a line knows its position, so the lines after the first one are those of `fun i => line (i + 1)`
  induction as generalizing bs line with
  | nil =>
    cases bs with
    | nil => exact ⟨rfl, h⟩
    | cons b bs =>
      rw [List.mapIdx_cons, String.join_cons, String.toList_append, List.append_assoc] at h
      exact absurd h (hr 0 b _)
  | cons a as ih =>
    cases bs with
    | nil =>
      rw [List.mapIdx_cons, String.join_cons, String.toList_append, List.append_assoc] at h
      exact absurd h.symm (hs 0 a _)
    | cons b bs =>
      simp only [List.mapIdx_cons, String.join_cons, String.toList_append, List.append_assoc] at h
      obtain ⟨hview, hlater⟩ := hline 0 a b _ _ h
      obtain ⟨hviews, hrest⟩ := ih _ (fun i => hline (i + 1)) (fun i => hr (i + 1)) (fun i => hs (i + 1)) hlater
      rw [List.map_cons, List.map_cons, hview, hviews]
      exact ⟨rfl, hrest⟩

end Lists

theorem not_passLine (i : Nat) (p : Pass) (t : List Char) : '\n' :: r ≠ (passLine i p).toList ++ t := by
  delta passLine
  simp

theorem not_resourceLine (i : Nat) (a : Resource k) (t : List Char) : '\n' :: r ≠ (resourceLine k i a).toList ++ t := by
  rw [toList_resourceLine]
  simp

/-- the buffers do not start like one more texture: their nodes have another letter -/
theorem buffers_not_textureLine (bs : List (Resource .buffer)) (i : Nat) (a : Resource .texture) (t : List Char) :
    (String.join (bs.mapIdx (resourceLine .buffer))).toList ++ '\n' :: r ≠ (resourceLine .texture i a).toList ++ t := by
  cases bs with
  | nil => exact not_resourceLine i a t
  | cons b bs =>
    rw [List.mapIdx_cons, String.join_cons, String.toList_append, List.append_assoc, toList_resourceLine,
      toList_resourceLine]
    simp [resourceNode]

/-! ## Counting lines -/

/-- the line of an arrow, without the line break -/
def Arrow.body (a : Arrow) : String :=
  if a.writes then "  " ++ passNode a.pass ++ " -> " ++ resourceNode a.key ++ ";"
  else "  " ++ resourceNode a.key ++ " -> " ++ passNode a.pass ++ ";"

/-- the arrow is drawn for this usage, if it is of the same pass and resource -/
def Arrow.shows (a : Arrow) (u : Usage) : Bool := if a.writes then u.writes else u.reads

/-- how many lines of the text are this one -/
def occurrences (line text : String) : Nat := (text.toList.splitOn '\n').count line.toList

theorem Arrow.toList_line (a : Arrow) : a.line.toList = a.body.toList ++ ['\n'] := by
  have hbreak : ";\n".toList = ";".toList ++ ['\n'] := rfl
  cases hw : a.writes <;> simp only [Arrow.line, Arrow.body, hw, if_true, Bool.false_eq_true, if_false,
    String.toList_append, hbreak, List.append_assoc]

theorem Arrow.body_injective : Function.Injective fun a : Arrow => a.body.toList := by
  intro a b h
  have h : a.body.toList = b.body.toList := h
  refine (Arrow.line_inj (r := []) (s := []) ?_).1
  rw [Arrow.toList_line, Arrow.toList_line, h]

theorem Arrow.break_not_mem_body (a : Arrow) : '\n' ∉ a.body.toList := by
  have hnumber : ∀ n : Nat, '\n' ∉ Nat.toDigits 10 n := by
    intro n hn
    have hdigit := Nat.isDigit_of_mem_toDigits (by decide) (by decide) hn
    exact absurd hdigit (by decide)
  obtain ⟨i, writes, kind, n⟩ := a
  cases writes <;> cases kind <;> simp [Arrow.body, passNode, resourceNode, hnumber]

/-- splitting the lines of the arrows gives them back, and the empty rest after the last line break -/
theorem splitOn_lines (arrows : List Arrow) :
    (String.join (arrows.map Arrow.line)).toList.splitOn '\n' = arrows.map (fun a => a.body.toList) ++ [[]] := by
  induction arrows with
  | nil => rfl
  | cons a arrows ih =>
    have hbody : ∀ c ∈ a.body.toList, (c == '\n') = false := by
      intro c hc
      exact beq_eq_false_iff_ne.2 fun hbreak => a.break_not_mem_body (hbreak ▸ hc)
    rw [List.map_cons, String.join_cons, String.toList_append, Arrow.toList_line, List.append_assoc,
      List.singleton_append, List.splitOn, List.splitOnP_append_cons_of_forall_mem hbody '\n' rfl]
    exact congrArg _ ih

theorem occurrences_lines (arrows : List Arrow) (a : Arrow) :
    occurrences a.body (String.join (arrows.map Arrow.line)) = arrows.count a := by
  have hnil : a.body.toList ≠ [] := by
    cases hw : a.writes <;> simp [Arrow.body, hw]
  rw [occurrences, splitOn_lines, List.count_append, List.count_map_of_injective _ _ Arrow.body_injective]
  simp [hnil.symm]

/-! ## The arrows of a pass -/

theorem mem_usageArrows {a : Arrow} {i : Nat} {u : Usage} :
    a ∈ usageArrows i u ↔ a.pass = i ∧ a.shows u = true ∧ u.key = a.key := by
  obtain ⟨j, writes, key⟩ := a
  rw [usageArrows, Arrow.shows, List.mem_append]
  cases writes <;> cases u.writes <;> cases u.reads <;> simp [@eq_comm _ u.key]

theorem mem_passArrows {a : Arrow} {i : Nat} {p : Pass} :
    a ∈ passArrows i p ↔ a.pass = i ∧ ∃ u ∈ p.usages, a.shows u = true ∧ u.key = a.key := by
  rw [passArrows, List.mem_eraseDups, List.mem_flatMap]
  constructor
  · rintro ⟨u, hu, ha⟩
    obtain ⟨hpass, haccess⟩ := mem_usageArrows.1 ha
    exact ⟨hpass, u, hu, haccess⟩
  · rintro ⟨hpass, u, hu, haccess⟩
    exact ⟨u, hu, mem_usageArrows.2 ⟨hpass, haccess⟩⟩

end Dot

open Dot

namespace Graph

variable {g g' : Graph}

/-- the text up to the arrows: the nodes of the passes and of the resources -/
def nodeText (g : Graph) : String :=
  header ++ String.join (g.passes.mapIdx passLine) ++ "\n"
    ++ String.join (g.registry.textures.mapIdx (resourceLine .texture))
    ++ String.join (g.registry.buffers.mapIdx (resourceLine .buffer)) ++ "\n"

/-- the arrows of all passes -/
def arrows (g : Graph) : List Arrow := (g.passes.mapIdx passArrows).flatten

/-- the lines of the arrows -/
def arrowText (g : Graph) : String := String.join (g.arrows.map Arrow.line)

/-- pass `i` has a usage of the resource, of the kind asked for -/
def HasUsage (g : Graph) (asked : Usage → Bool) (i : Nat) (key : Key) : Prop :=
  ∃ p u, g.passes[i]? = some p ∧ u ∈ p.usages ∧ asked u = true ∧ u.key = key

theorem toDot_eq (g : Graph) : g.toDot = g.nodeText ++ g.arrowText ++ legend := rfl

theorem mem_arrows {a : Arrow} : a ∈ g.arrows ↔ g.HasUsage a.shows a.pass a.key := by
  rw [arrows, List.mem_flatten]
  constructor
  · rintro ⟨drawn, hdrawn, ha⟩
    obtain ⟨i, hi, rfl⟩ := List.mem_mapIdx.1 hdrawn
    obtain ⟨rfl, u, hu, haccess, hkey⟩ := mem_passArrows.1 ha
    exact ⟨g.passes[a.pass], u, List.getElem?_eq_getElem hi, hu, haccess, hkey⟩
  · rintro ⟨p, u, hp, hu, haccess, hkey⟩
    obtain ⟨hi, rfl⟩ := List.getElem?_eq_some_iff.1 hp
    exact ⟨_, List.mem_mapIdx.2 ⟨a.pass, hi, rfl⟩, mem_passArrows.2 ⟨rfl, u, hu, haccess, hkey⟩⟩

theorem nodup_arrows (g : Graph) : g.arrows.Nodup := by
  rw [arrows, List.nodup_flatten]
  refine ⟨?_, List.pairwise_iff_getElem.2 ?_⟩
  · intro drawn hdrawn
    obtain ⟨i, hi, rfl⟩ := List.mem_mapIdx.1 hdrawn
    exact nodup_eraseDups _
  · intro i j hi hj hij
    rw [List.getElem_mapIdx, List.getElem_mapIdx]
    intro a hai haj
    exact hij.ne ((mem_passArrows.1 hai).1.symm.trans (mem_passArrows.1 haj).1)

/-- an arrow that is drawn for a usage has one line -/
theorem occurrences_arrowText {a : Arrow} (h : g.HasUsage a.shows a.pass a.key) : occurrences a.body g.arrowText = 1 := by
  rw [arrowText, occurrences_lines]
  exact List.count_eq_one_of_mem g.nodup_arrows (mem_arrows.2 h)

/-- an arrow that is drawn for no usage has no line -/
theorem occurrences_arrowText_eq_zero {a : Arrow} (h : ¬ g.HasUsage a.shows a.pass a.key) :
    occurrences a.body g.arrowText = 0 := by
  rw [arrowText, occurrences_lines]
  exact List.count_eq_zero.2 fun ha => h (mem_arrows.1 ha)

/-- the lines of the arrows tell the usages -/
theorem hasUsage_congr (h : g.arrowText = g'.arrowText) (a : Arrow) :
    g.HasUsage a.shows a.pass a.key ↔ g'.HasUsage a.shows a.pass a.key := by
  have hmp : ∀ {g g' : Graph}, g.arrowText = g'.arrowText → g.HasUsage a.shows a.pass a.key →
      g'.HasUsage a.shows a.pass a.key := by
    intro g g' h ha
    by_contra hn
    have hone := occurrences_arrowText ha
    rw [h, occurrences_arrowText_eq_zero hn] at hone
    exact absurd hone (by decide)
  exact ⟨hmp h, hmp h.symm⟩

/-! ## Reading the text -/

/-- the two graphs agree on what their texts show -/
structure DrawnAlike (g g' : Graph) : Prop where
  /-- the passes have the same names and kinds, and the same ones are culled -/
  passes : g.passes.map passFacts = g'.passes.map passFacts
  /-- the textures have the same names, imports, heaps and export states -/
  textures : g.registry.textures.map resourceFacts = g'.registry.textures.map resourceFacts
  /-- so have the buffers, and the same sizes -/
  buffers : g.registry.buffers.map resourceFacts = g'.registry.buffers.map resourceFacts
  /-- the same passes write the same resources -/
  writes : ∀ i key, g.HasUsage Usage.writes i key ↔ g'.HasUsage Usage.writes i key
  /-- the same passes read the same resources -/
  reads : ∀ i key, g.HasUsage Usage.reads i key ↔ g'.HasUsage Usage.reads i key

/-- each access of a pass has one arrow, and there are no others -/
structure DrawsArrowsOnce (g : Graph) : Prop where
  /-- the lines of the arrows stand between the nodes and the legend -/
  block : g.toDot = g.nodeText ++ g.arrowText ++ legend
  /-- the arrow from a pass to what it writes is there once -/
  writes : ∀ i key, g.HasUsage Usage.writes i key →
    occurrences ("  " ++ passNode i ++ " -> " ++ resourceNode key ++ ";") g.arrowText = 1
  /-- there is none to what it does not write -/
  only_writes : ∀ i key, ¬ g.HasUsage Usage.writes i key →
    occurrences ("  " ++ passNode i ++ " -> " ++ resourceNode key ++ ";") g.arrowText = 0
  /-- the arrow to a pass from what it reads is there once -/
  reads : ∀ i key, g.HasUsage Usage.reads i key →
    occurrences ("  " ++ resourceNode key ++ " -> " ++ passNode i ++ ";") g.arrowText = 1
  /-- there is none from what it does not read -/
  only_reads : ∀ i key, ¬ g.HasUsage Usage.reads i key →
    occurrences ("  " ++ resourceNode key ++ " -> " ++ passNode i ++ ";") g.arrowText = 0

theorem drawsArrowsOnce (g : Graph) : g.DrawsArrowsOnce where
  block := g.toDot_eq
  writes i key h := occurrences_arrowText (a := ⟨i, true, key⟩) h
  only_writes i key h := occurrences_arrowText_eq_zero (a := ⟨i, true, key⟩) h
  reads i key h := occurrences_arrowText (a := ⟨i, false, key⟩) h
  only_reads i key h := occurrences_arrowText_eq_zero (a := ⟨i, false, key⟩) h

/-- the nodes are read back, whatever follows them -/
theorem nodeText_inj (h : g.nodeText.toList ++ r = g'.nodeText.toList ++ s) :
    g.passes.map passFacts = g'.passes.map passFacts ∧
      g.registry.textures.map resourceFacts = g'.registry.textures.map resourceFacts ∧
      g.registry.buffers.map resourceFacts = g'.registry.buffers.map resourceFacts ∧ r = s := by
  have hbreak : "\n".toList = ['\n'] := rfl
  simp only [nodeText, String.toList_append, List.append_assoc, hbreak, List.singleton_append] at h
  have hlines := List.append_cancel_left h
  obtain ⟨hpasses, hlines⟩ :=
    lines_inj passLine passFacts (fun i p q r s => passLine_inj) not_passLine not_passLine hlines
  have hlines := List.tail_eq_of_cons_eq hlines
  obtain ⟨htextures, hlines⟩ := lines_inj (resourceLine .texture) resourceFacts (fun i a b r s => resourceLine_inj)
    (buffers_not_textureLine _) (buffers_not_textureLine _) hlines
  obtain ⟨hbuffers, hlines⟩ := lines_inj (resourceLine .buffer) resourceFacts (fun i a b r s => resourceLine_inj)
    not_resourceLine not_resourceLine hlines
  exact ⟨hpasses, htextures, hbuffers, List.tail_eq_of_cons_eq hlines⟩

theorem drawnAlike_of_toDot_eq (h : g.toDot = g'.toDot) : g.DrawnAlike g' := by
  have hchars := congrArg String.toList h
  simp only [toDot_eq, String.toList_append, List.append_assoc] at hchars
  obtain ⟨hpasses, htextures, hbuffers, hrest⟩ := nodeText_inj hchars
  have harrows : g.arrowText = g'.arrowText := String.toList_inj.1 (List.append_cancel_right hrest)
  exact {
    passes := hpasses
    textures := htextures
    buffers := hbuffers
    writes := fun i key => hasUsage_congr harrows ⟨i, true, key⟩
    reads := fun i key => hasUsage_congr harrows ⟨i, false, key⟩ }

/-- **The text can be read back.** Graphs with the same text agree on what it shows, whatever the names are: a name may
have quotes, backslashes, line breaks and lines of its own. Between the nodes and the legend, each access of a pass has
one arrow. -/
theorem toDot_determines (g : Graph) : (∀ g', g.toDot = g'.toDot → g.DrawnAlike g') ∧ g.DrawsArrowsOnce :=
  ⟨fun _ => drawnAlike_of_toDot_eq, g.drawsArrowsOnce⟩

/-- a pass that renders to some mip levels of a texture; both have names that look like other parts of the text -/
def disguised (levels : List Nat) : Graph :=
  let d := { TextureDescriptor.blank with label := some "\\n(imported)\"];\n  p0 -> t1;", mipCount := 2 }
  ((new {}).create (k := .texture) d).1.addPass "\\" .graphics
    (levels.map fun level => .access ⟨.texture, ⟨0, some (.mip level)⟩⟩ .renderTarget .write) (fun _ => []) |>.1

/-- whether one level is used or both, there is one arrow, and none for the line within the name -/
theorem toDot_determines_disguised :
    (disguised [0, 1]).toDot = (disguised [1]).toDot ∧ (disguised [0, 1]).DrawnAlike (disguised [1]) ∧
      (disguised [0, 1]).HasUsage Usage.writes 0 ⟨.texture, 0⟩ ∧
      occurrences "  p0 -> t0;" (disguised [0, 1]).arrowText = 1 ∧
      ¬ (disguised [0, 1]).HasUsage Usage.writes 0 ⟨.texture, 1⟩ ∧
      occurrences "  p0 -> t1;" (disguised [0, 1]).arrowText = 0 := by
  obtain ⟨hdetermines, honce⟩ := toDot_determines (disguised [0, 1])
  have htext : (disguised [0, 1]).toDot = (disguised [1]).toDot := by decide +kernel
  have hwrites : (disguised [0, 1]).HasUsage Usage.writes 0 ⟨.texture, 0⟩ := by
    refine ⟨_, _, rfl, List.mem_cons_self, rfl, rfl⟩
  have hkeys : ∀ p ∈ (disguised [0, 1]).passes, ∀ u ∈ p.usages, u.key = ⟨.texture, 0⟩ := by decide +kernel
  have hother : ¬ (disguised [0, 1]).HasUsage Usage.writes 0 ⟨.texture, 1⟩ := by
    rintro ⟨p, u, hp, hu, -, hkey⟩
    have hsame := hkeys p (List.mem_of_getElem? hp) u hu
    exact absurd (hsame.symm.trans hkey) (by decide)
  have hline : "  " ++ passNode 0 ++ " -> " ++ resourceNode ⟨.texture, 0⟩ ++ ";" = "  p0 -> t0;" := by decide +kernel
  have hotherLine : "  " ++ passNode 0 ++ " -> " ++ resourceNode ⟨.texture, 1⟩ ++ ";" = "  p0 -> t1;" := by
    decide +kernel
  rw [← hline, ← hotherLine]
  exact ⟨htext, hdetermines _ htext, hwrites, honce.writes _ _ hwrites, hother, honce.only_writes _ _ hother⟩

end Graph

end FrameGraph
