/-
What a device is asked for when a graph is compiled, and when that makes compiling answer an error.

The device is asked for an object for each resource that needs one, textures before buffers and in registration order,
until it refuses one (`Graph.createCalls`).

- `back_logged`: these are the requests that reach the device, and it is sent nothing else.
- `compile_error_iff`: compiling answers an error if and only if one of the calls is refused, and the error has the name
  of the resource of that call and the device's reason.
- `asksInOrder`: named by the resource they are for (`Graph.creations`), the calls go through the resources that need an
  object in registration order, textures first, and stop at the first refusal.
-/
import FrameGraph.Graph
import Mathlib.Tactic

namespace FrameGraph

variable {σ : Type} {k : ResourceKind}

/-! ## Create calls -/

/-- one request to a device, the name of the resource it is for, and the answer -/
structure CreateCall where
  request : Request
  name : String
  answer : Except DeviceError Allocation

/-- the error a refused call stands for -/
def CreateCall.error? (c : CreateCall) : Option AllocationError :=
  match c.answer with
  | .ok _ => none
  | .error cause => some ⟨c.request.kind, c.name, cause⟩

/-- ask a device for one object after another, until it refuses one; also the device after it -/
def Device.ask (dev : Device σ) (s : σ) : List (String × Request) → List CreateCall × σ
  | [] => ([], s)
  | (name, request) :: rest =>
    match dev.respond s request with
    | (.ok a, s') => (⟨request, name, .ok a⟩ :: (dev.ask s' rest).1, (dev.ask s' rest).2)
    | (.error e, s') => ([⟨request, name, .error e⟩], s')

/-- the objects some resources of one kind need -/
def Resource.wanted (rs : List (Resource k)) : List (String × Request) :=
  (rs.filter Resource.unbacked).map fun r => (r.name, ⟨k, r.descriptor⟩)

/-- the objects the resources need -/
def Registry.wanted (g : Registry) : List (String × Request) := Resource.wanted g.textures ++ Resource.wanted g.buffers

/-- the calls that compiling a graph makes on a device -/
def Graph.createCalls (g : Graph) (dev : Device σ) (s : σ) : List CreateCall := (dev.ask s g.registry.wanted).1

/-- the first refusal among some calls -/
def refusal (calls : List CreateCall) : Option AllocationError := calls.findSome? CreateCall.error?

@[simp] theorem CreateCall.error?_ok (request : Request) (name : String) (a : Allocation) :
    (CreateCall.mk request name (.ok a)).error? = none := rfl

@[simp] theorem CreateCall.error?_error (request : Request) (name : String) (cause : DeviceError) :
    (CreateCall.mk request name (.error cause)).error? = some ⟨request.kind, name, cause⟩ := rfl

/-! ## Asking -/

namespace Device

variable {dev : Device σ} {s s' : σ} {ws vs : List (String × Request)} {name : String} {request : Request}

theorem ask_cons_ok {a : Allocation} (h : dev.respond s request = (.ok a, s')) :
    dev.ask s ((name, request) :: ws) = (⟨request, name, .ok a⟩ :: (dev.ask s' ws).1, (dev.ask s' ws).2) := by
  rw [ask, h]

theorem ask_cons_error {e : DeviceError} (h : dev.respond s request = (.error e, s')) :
    dev.ask s ((name, request) :: ws) = ([⟨request, name, .error e⟩], s') := by
  rw [ask, h]

/-- nothing is asked after a refusal, so a refused call is the first one -/
theorem refusal_ask {e : AllocationError} :
    refusal (dev.ask s ws).1 = some e ↔ ∃ c ∈ (dev.ask s ws).1, c.error? = some e := by
  induction ws generalizing s with
  | nil => simp [ask, refusal]
  | cons w ws ih =>
    obtain ⟨name, request⟩ := w
    obtain ⟨answer, s', hr⟩ : ∃ answer s', dev.respond s request = (answer, s') := ⟨_, _, rfl⟩
    cases answer with
    | ok a =>
      rw [ask_cons_ok hr]
      simpa [refusal, List.findSome?_cons] using ih (s := s')
    | error cause =>
      rw [ask_cons_error hr]
      simp [refusal]

theorem ask_append_of_accepted (h : refusal (dev.ask s ws).1 = none) :
    dev.ask s (ws ++ vs) = ((dev.ask s ws).1 ++ (dev.ask (dev.ask s ws).2 vs).1, (dev.ask (dev.ask s ws).2 vs).2) := by
  induction ws generalizing s with
  | nil => rfl
  | cons w ws ih =>
    obtain ⟨name, request⟩ := w
    obtain ⟨answer, s', hr⟩ : ∃ answer s', dev.respond s request = (answer, s') := ⟨_, _, rfl⟩
    cases answer with
    | ok a =>
      rw [ask_cons_ok hr] at h ⊢
      rw [List.cons_append, ask_cons_ok hr, ih h]
      rfl
    | error cause =>
      rw [ask_cons_error hr] at h
      cases h

theorem ask_append_of_refused {e : AllocationError} (h : refusal (dev.ask s ws).1 = some e) :
    dev.ask s (ws ++ vs) = dev.ask s ws := by
  induction ws generalizing s with
  | nil => cases h
  | cons w ws ih =>
    obtain ⟨name, request⟩ := w
    obtain ⟨answer, s', hr⟩ : ∃ answer s', dev.respond s request = (answer, s') := ⟨_, _, rfl⟩
    cases answer with
    | ok a =>
      rw [ask_cons_ok hr] at h ⊢
      rw [List.cons_append, ask_cons_ok hr, ih h]
    | error cause => rw [List.cons_append, ask_cons_error hr, ask_cons_error hr]

theorem respond_logged {answer : Except DeviceError Allocation} (log : List Request)
    (h : dev.respond s request = (answer, s')) :
    dev.logged.respond (s, log) request = (answer, (s', log ++ [request])) := by
  simp only [logged, h]

/-- a device that keeps a log is asked the same and answers the same -/
theorem ask_logged (log : List Request) :
    (dev.logged.ask (s, log) ws) =
      ((dev.ask s ws).1, ((dev.ask s ws).2, log ++ (dev.ask s ws).1.map CreateCall.request)) := by
  induction ws generalizing s log with
  | nil => simp [ask]
  | cons w ws ih =>
    obtain ⟨name, request⟩ := w
    obtain ⟨answer, s', hr⟩ : ∃ answer s', dev.respond s request = (answer, s') := ⟨_, _, rfl⟩
    have hlog := respond_logged log hr
    cases answer with
    | ok a =>
      rw [ask_cons_ok hr, ask_cons_ok hlog, ih]
      simp
    | error cause => rw [ask_cons_error hr, ask_cons_error hlog]; rfl

end Device

/-! ## Backing -/

/-- a resource that needs no object is passed by -/
theorem Resource.back_of_backed {dev : Device σ} {s : σ} {r : Resource k} (h : r.unbacked = false) :
    r.back dev s = (.ok r, s) := by
  rw [back, h]
  rfl

/-- backing records asks for what they need, and ends with the first refusal -/
theorem Resource.backAll_ask (dev : Device σ) (s : σ) (rs : List (Resource k)) :
    (Resource.backAll dev s rs).2 = (refusal (dev.ask s (wanted rs)).1, (dev.ask s (wanted rs)).2) := by
  induction rs generalizing s with
  | nil => rfl
  | cons r rs ih =>
    rw [backAll, wanted]
    by_cases hu : r.unbacked = true
    · rw [List.filter_cons_of_pos hu, List.map_cons, Device.ask, back, if_pos hu]
      cases hr : dev.respond s ⟨k, r.descriptor⟩ with
      | mk answer s' =>
        cases answer with
        | ok a => exact ih s'
        | error cause => rfl
    · rw [List.filter_cons_of_neg hu, back_of_backed (by simpa using hu)]
      exact ih s

theorem Registry.back_ask (dev : Device σ) (s : σ) (g : Registry) :
    (g.back dev s).2 = (refusal (dev.ask s g.wanted).1, (dev.ask s g.wanted).2) := by
  have ht := Resource.backAll_ask dev s g.textures
  unfold Registry.back
  split
  · rename_i textures e s' hb
    rw [hb] at ht
    obtain ⟨he, hs⟩ := Prod.mk.inj ht
    rw [wanted, Device.ask_append_of_refused he.symm, ← he, ← hs]
  · rename_i textures s' hb
    rw [hb] at ht
    obtain ⟨he, hs⟩ := Prod.mk.inj ht
    rw [wanted, Device.ask_append_of_accepted he.symm, ← hs]
    have hnone : refusal (dev.ask s (Resource.wanted g.textures)).1 = none := he.symm
    have happend : ∀ calls, refusal ((dev.ask s (Resource.wanted g.textures)).1 ++ calls) = refusal calls := by
      intro calls
      rw [refusal, List.findSome?_append]
      rw [refusal] at hnone
      rw [hnone]
      rfl
    rw [happend]
    exact Resource.backAll_ask dev s' g.buffers

namespace Graph

variable {g : Graph} {dev : Device σ} {s : σ}

/-- **The device is sent the requests of the create calls,** in their order, and nothing else. -/
theorem back_logged (g : Graph) (dev : Device σ) (s : σ) :
    (g.registry.back dev.logged (s, [])).2.2.2 = (g.createCalls dev s).map CreateCall.request := by
  rw [Registry.back_ask, Device.ask_logged]
  rfl

/-- **Compiling answers an error if and only if a create call is refused,** and it is the error of that call. -/
theorem compile_error_iff {e : AllocationError} :
    (∃ g' s', g.compile dev s = .ok (g', .error e, s')) ↔ ∃ c ∈ g.createCalls dev s, c.error? = some e := by
  have hask := Registry.back_ask dev s g.registry
  rw [createCalls, ← Device.refusal_ask]
  unfold compile
  split
  · rename_i registry e' s' hb
    rw [hb] at hask
    obtain ⟨he, -⟩ := Prod.mk.inj hask
    rw [← he, Option.some_inj]
    constructor
    · rintro ⟨g', s'', hc⟩
      cases hc
      rfl
    · rintro rfl
      exact ⟨_, _, rfl⟩
  · rename_i registry s' hb
    rw [hb] at hask
    obtain ⟨he, -⟩ := Prod.mk.inj hask
    rw [← he]
    constructor
    · rintro ⟨g', s'', hc⟩
      obtain ⟨plan, -, hc⟩ := bind_eq_ok.1 hc
      cases hc
    · intro hno
      cases hno

/-- if no call is refused, every resource has an object -/
theorem back_of_accepted (h : ∀ c ∈ g.createCalls dev s, c.error? = none) : (g.registry.back dev s).2.1 = none := by
  rw [Registry.back_ask]
  refine List.findSome?_eq_none_iff.2 fun c hc => ?_
  exact h c hc

end Graph

/-! ## Which resource a call is for -/

/-- the records of a list that need an object, the first of them with index `start` -/
def Resource.missing (start : Nat) (rs : List (Resource k)) : List Key :=
  ((rs.zipIdx start).filter (·.1.unbacked)).map fun (_, i) => ⟨k, i⟩

namespace Registry

/-- the resources that need an object, textures before buffers, each kind in registration order -/
def missing (g : Registry) : List Key := Resource.missing 0 g.textures ++ Resource.missing 0 g.buffers

/-- the record of a key -/
def record? (g : Registry) (key : Key) : Option (Resource key.kind) := (g.get key.kind)[key.index]?

end Registry

/-- textures come before buffers, and each kind is in registration order -/
def Key.Before (a b : Key) : Prop := (a.kind = .texture ∧ b.kind = .buffer) ∨ (a.kind = b.kind ∧ a.index < b.index)

theorem Key.Before.irrefl {a : Key} (h : a.Before a) : False := by
  rcases h with ⟨ht, hb⟩ | ⟨-, hlt⟩
  · rw [ht] at hb
    cases hb
  · exact Nat.lt_irrefl _ hlt

/-- the calls that compiling a graph makes, each with the resource it is for -/
def Graph.creations (g : Graph) (dev : Device σ) (s : σ) : List (Key × CreateCall) :=
  g.registry.missing.zip (g.createCalls dev s)

/-- the object the first accepted call for a resource was answered with -/
def madeFor (calls : List (Key × CreateCall)) (key : Key) : Option Allocation :=
  calls.findSome? fun c => if c.1 = key then c.2.answer.toOption else none

/-- the calls that compiling a graph makes are for the resources that need an object, in their order, and end with the
first one that is refused -/
structure Graph.AsksInOrder (g : Graph) (dev : Device σ) (s : σ) : Prop where
  /-- these are the requests that reach the device -/
  sent : (g.registry.back dev.logged (s, [])).2.2.2 = (g.creations dev s).map (·.2.request)
  /-- each is for a resource of the graph's own that has no object yet -/
  each : ∀ c ∈ g.creations dev s, ∃ r, g.registry.record? c.1 = some r ∧ r.imported = false ∧ r.backing = none ∧
    c.2.request = ⟨c.1.kind, r.descriptor⟩ ∧ c.2.name = r.name
  /-- textures first, then buffers, in registration order -/
  ordered : ((g.creations dev s).map Prod.fst).Pairwise Key.Before
  /-- none is left out before the first refusal -/
  first : (g.creations dev s).map Prod.fst <+: g.registry.missing
  /-- nothing is asked for after a refusal -/
  stops : ∀ c ∈ (g.creations dev s).dropLast, c.2.error? = none
  /-- without a refusal every resource without an object is asked for -/
  all : (∀ c ∈ g.creations dev s, c.2.error? = none) → (g.creations dev s).map Prod.fst = g.registry.missing

theorem Resource.wanted_eq (start : Nat) (rs : List (Resource k)) :
    wanted rs = ((rs.zipIdx start).filter (·.1.unbacked)).map fun x => (x.1.name, ⟨k, x.1.descriptor⟩) := by
  have hfst : rs = (rs.zipIdx start).map Prod.fst := (List.zipIdx_map_fst start rs).symm
  rw [wanted]
  conv_lhs => rw [hfst]
  rw [List.filter_map, List.map_map]
  rfl

theorem Resource.length_missing (start : Nat) (rs : List (Resource k)) :
    (missing start rs).length = (wanted rs).length := by
  rw [missing, wanted_eq start, List.length_map, List.length_map]

theorem Resource.missing_cons (start : Nat) (r : Resource k) (rs : List (Resource k)) :
    missing start (r :: rs) = if r.unbacked then ⟨k, start⟩ :: missing (start + 1) rs else missing (start + 1) rs := by
  rw [missing, List.zipIdx_cons, List.filter_cons]
  split <;> rfl

theorem Resource.mem_missing {start : Nat} {rs : List (Resource k)} {key : Key} (h : key ∈ missing start rs) :
    key.kind = k ∧ start ≤ key.index := by
  obtain ⟨⟨r, i⟩, hm, rfl⟩ := List.mem_map.1 h
  exact ⟨rfl, (List.mem_zipIdx (List.mem_filter.1 hm).1).1⟩

/-- each of them with what is wanted for it -/
theorem Resource.getElem?_missing {start j : Nat} {rs : List (Resource k)} {key : Key}
    (h : (missing start rs)[j]? = some key) :
    ∃ r i, key = ⟨k, start + i⟩ ∧ rs[i]? = some r ∧ r.unbacked = true ∧
      (wanted rs)[j]? = some (r.name, ⟨k, r.descriptor⟩) := by
  rw [missing, List.getElem?_map] at h
  obtain ⟨⟨r, n⟩, hj, rfl⟩ := Option.map_eq_some_iff.1 h
  obtain ⟨hm, hu⟩ := List.mem_filter.1 (List.mem_of_getElem? hj)
  obtain ⟨hle, hr⟩ := List.mk_mem_zipIdx_iff_le_and_getElem?_sub.1 hm
  refine ⟨r, n - start, by rw [Nat.add_sub_cancel' hle], hr, hu, ?_⟩
  rw [wanted_eq start, List.getElem?_map, hj]
  rfl

theorem Resource.mem_missing_of {start i : Nat} {rs : List (Resource k)} {r : Resource k} (hr : rs[i]? = some r)
    (hu : r.unbacked = true) : ⟨k, start + i⟩ ∈ missing start rs := by
  refine List.mem_map.2 ⟨(r, start + i), List.mem_filter.2 ⟨?_, hu⟩, rfl⟩
  exact List.mk_mem_zipIdx_iff_le_and_getElem?_sub.2 ⟨Nat.le_add_right _ _, by rwa [Nat.add_sub_cancel_left]⟩

theorem Resource.pairwise_missing (start : Nat) (rs : List (Resource k)) :
    (missing start rs).Pairwise Key.Before := by
  induction rs generalizing start with
  | nil => exact List.Pairwise.nil
  | cons r rs ih =>
    rw [missing_cons]
    split
    · refine List.pairwise_cons.2 ⟨fun key hkey => ?_, ih (start + 1)⟩
      obtain ⟨hk, hi⟩ := mem_missing hkey
      exact Or.inr ⟨hk.symm, hi⟩
    · exact ih (start + 1)

theorem Registry.pairwise_missing (g : Registry) : g.missing.Pairwise Key.Before := by
  refine List.pairwise_append.2 ⟨Resource.pairwise_missing 0 _, Resource.pairwise_missing 0 _, fun a ha b hb => ?_⟩
  exact Or.inl ⟨(Resource.mem_missing ha).1, (Resource.mem_missing hb).1⟩

namespace Device

variable {dev : Device σ} {s : σ} {ws : List (String × Request)}

/-- the calls are for what is wanted, in order -/
theorem prefix_ask : (dev.ask s ws).1.map (fun c => (c.name, c.request)) <+: ws := by
  induction ws generalizing s with
  | nil => exact List.prefix_refl _
  | cons w ws ih =>
    obtain ⟨name, request⟩ := w
    obtain ⟨answer, s', hr⟩ : ∃ answer s', dev.respond s request = (answer, s') := ⟨_, _, rfl⟩
    cases answer with
    | ok a =>
      rw [ask_cons_ok hr, List.map_cons]
      exact List.cons_prefix_cons.2 ⟨rfl, ih⟩
    | error e =>
      rw [ask_cons_error hr]
      exact List.cons_prefix_cons.2 ⟨rfl, List.nil_prefix⟩

theorem getElem?_ask {j : Nat} {c : CreateCall} (h : (dev.ask s ws).1[j]? = some c) :
    ws[j]? = some (c.name, c.request) := by
  obtain ⟨hj, rfl⟩ := List.getElem?_eq_some_iff.1 h
  rw [List.prefix_iff_getElem?.1 prefix_ask j (by rwa [List.length_map]), List.getElem_map]

theorem length_ask_le : (dev.ask s ws).1.length ≤ ws.length := by
  have h := (@prefix_ask σ dev s ws).length_le
  rwa [List.length_map] at h

/-- nothing is asked for after a refusal -/
theorem accepted_of_mem_dropLast {c : CreateCall} (hc : c ∈ (dev.ask s ws).1.dropLast) : c.error? = none := by
  induction ws generalizing s with
  | nil => cases hc
  | cons w ws ih =>
    obtain ⟨name, request⟩ := w
    obtain ⟨answer, s', hr⟩ : ∃ answer s', dev.respond s request = (answer, s') := ⟨_, _, rfl⟩
    cases answer with
    | ok a =>
      rw [ask_cons_ok hr] at hc
      cases hrest : (dev.ask s' ws).1 with
      | nil =>
        rw [hrest] at hc
        cases hc
      | cons d ds =>
        rw [hrest, List.dropLast_cons_cons, ← hrest] at hc
        rcases List.mem_cons.1 hc with rfl | hc
        · rfl
        · exact ih hc
    | error e =>
      rw [ask_cons_error hr] at hc
      cases hc

/-- without a refusal everything that is wanted is asked for -/
theorem length_ask_of_accepted (h : ∀ c ∈ (dev.ask s ws).1, c.error? = none) :
    (dev.ask s ws).1.length = ws.length := by
  induction ws generalizing s with
  | nil => rfl
  | cons w ws ih =>
    obtain ⟨name, request⟩ := w
    obtain ⟨answer, s', hr⟩ : ∃ answer s', dev.respond s request = (answer, s') := ⟨_, _, rfl⟩
    cases answer with
    | ok a =>
      rw [ask_cons_ok hr] at h ⊢
      rw [List.length_cons, List.length_cons, ih (List.forall_mem_cons.1 h).2]
    | error e =>
      rw [ask_cons_error hr] at h
      cases h _ (List.mem_singleton_self _)

end Device

theorem Registry.length_missing (g : Registry) : g.missing.length = g.wanted.length := by
  rw [missing, wanted, List.length_append, List.length_append, Resource.length_missing, Resource.length_missing]

/-- each resource that needs an object, with what is wanted for it -/
theorem Registry.getElem?_missing {g : Registry} {j : Nat} {key : Key} (h : g.missing[j]? = some key) :
    ∃ r, g.record? key = some r ∧ r.unbacked = true ∧ g.wanted[j]? = some (r.name, ⟨key.kind, r.descriptor⟩) := by
  rw [missing, List.getElem?_append] at h
  rw [wanted, List.getElem?_append, ← Resource.length_missing 0]
  split at h
  · obtain ⟨r, i, rfl, hr, hu, hw⟩ := Resource.getElem?_missing h
    rw [if_pos ‹_›]
    refine ⟨r, ?_, hu, hw⟩
    rw [record?, Nat.zero_add]
    exact hr
  · obtain ⟨r, i, rfl, hr, hu, hw⟩ := Resource.getElem?_missing h
    rw [if_neg ‹_›]
    refine ⟨r, ?_, hu, hw⟩
    rw [record?, Nat.zero_add]
    exact hr

theorem Resource.unbacked_iff {r : Resource k} : r.unbacked = true ↔ r.imported = false ∧ r.backing = none := by
  rw [unbacked, Bool.and_eq_true, Bool.not_eq_true', Option.isNone_iff_eq_none]

/-- the resources that need an object are the graph's own without one -/
theorem Registry.mem_missing {g : Registry} {key : Key} :
    key ∈ g.missing ↔ ∃ r, g.record? key = some r ∧ r.imported = false ∧ r.backing = none := by
  constructor
  · intro h
    obtain ⟨j, hj⟩ := List.mem_iff_getElem?.1 h
    obtain ⟨r, hr, hu, -⟩ := getElem?_missing hj
    exact ⟨r, hr, Resource.unbacked_iff.1 hu⟩
  · rintro ⟨r, hr, hu⟩
    obtain ⟨kind, i⟩ := key
    have hmem := fun rs hrs => @Resource.mem_missing_of kind 0 i rs r hrs (Resource.unbacked_iff.2 hu)
    rw [Nat.zero_add] at hmem
    cases kind
    · exact List.mem_append_left _ (hmem _ hr)
    · exact List.mem_append_right _ (hmem _ hr)

namespace Graph

variable {g : Graph} {dev : Device σ} {s : σ}

/-- no call is lost by naming its resource -/
theorem creations_snd (g : Graph) (dev : Device σ) (s : σ) : (g.creations dev s).map Prod.snd = g.createCalls dev s := by
  refine List.map_snd_zip ?_
  rw [g.registry.length_missing]
  exact Device.length_ask_le

/-- **Compiling asks for the resources that need an object, in order, until a call is refused.** -/
theorem asksInOrder (g : Graph) (dev : Device σ) (s : σ) : g.AsksInOrder dev s := by
  have hsnd := g.creations_snd dev s
  have hfst : (g.creations dev s).map Prod.fst <+: g.registry.missing := by
    rw [creations, List.zip_eq_zip_take_min, List.map_fst_zip (by simp)]
    exact List.take_prefix _ _
  refine ⟨?_, fun c hc => ?_, g.registry.pairwise_missing.sublist hfst.sublist, hfst, fun c hc => ?_, fun h => ?_⟩
  · rw [back_logged, ← hsnd, List.map_map]
    rfl
  · obtain ⟨j, hj⟩ := List.mem_iff_getElem?.1 hc
    obtain ⟨hkey, hcall⟩ := List.getElem?_zip_eq_some.1 hj
    obtain ⟨r, hr, hu, hw⟩ := Registry.getElem?_missing hkey
    rw [Device.getElem?_ask hcall, Option.some_inj, Prod.mk.injEq] at hw
    obtain ⟨himported, hbacking⟩ := Resource.unbacked_iff.1 hu
    exact ⟨r, hr, himported, hbacking, hw.2, hw.1⟩
  · have hcalls : c.2 ∈ (g.createCalls dev s).dropLast := by
      rw [← hsnd, ← List.map_dropLast]
      exact List.mem_map_of_mem hc
    exact Device.accepted_of_mem_dropLast hcalls
  · refine hfst.eq_of_length ?_
    rw [List.length_map, ← List.length_map (f := Prod.snd), hsnd, g.registry.length_missing]
    refine Device.length_ask_of_accepted fun c hc => ?_
    have hc' : c ∈ (g.creations dev s).map Prod.snd := hsnd ▸ hc
    obtain ⟨d, hd, rfl⟩ := List.mem_map.1 hc'
    exact h d hd

end Graph

end FrameGraph
