import HostCall.Proofs.Stack
import HostCall.Proofs.StickyFault

/-! Calls on a stack that is too short. A cell that is missing counts as 0, so lifting goes on with
what it has and gives the value that zeros below the stack would give, wherever in a value or among
the arguments the cells run out. Beside that a fault is met: the missing cell, unless what was lifted
before has met one already. Main statements: `Lifting.stepwise_pads`, `run_underflow`. -/

namespace HostCall

variable {ν α β : Type}

namespace Lifting

/-- Steps that take `n` cells, and on fewer cells meet a fault and otherwise do what they do with
zeros below. The fault is the missing cell or the one that they meet there as well. -/
structure Pads (n : Nat) (steps : Lifting α) : Prop where
  takes : Takes n steps
  short : ∀ cells : List Cell, cells.length < n → ∃ f,
    steps cells = ⟨((steps (cells.rightpad n 0)).value.1, []), some f⟩ ∧
      (f = .stackUnderflow ∨ (steps (cells.rightpad n 0)).fault = some f)

/-- Steps that take no cell cannot run out of them. -/
theorem Takes.pads {steps : Lifting α} (h : Takes 0 steps) : Pads 0 steps :=
  ⟨h, fun _ hlt => absurd hlt (Nat.not_lt_zero _)⟩

theorem pads_outcome (o : Outcome α) : Pads 0 (liftM o : Lifting α) := (takes_outcome o).pads

theorem pads_pop : Pads 1 pop where
  takes := takes_pop
  short cells h := by
    obtain rfl := List.length_eq_zero_iff.1 (Nat.lt_one_iff.1 h)
    exact ⟨.stackUnderflow, rfl, .inl rfl⟩

theorem rightpad_add {cells : List Cell} {n : Nat} (h : cells.length ≤ n) (k : Nat) :
    cells.rightpad (n + k) 0 = cells.rightpad n 0 ++ List.replicate k 0 := by
  have hmissing : n + k - cells.length = n - cells.length + k := by omega
  rw [List.rightpad, List.rightpad, hmissing, List.append_assoc, List.replicate_append_replicate]

theorem rightpad_append {upper : List Cell} {n : Nat} (h : upper.length = n) (lower : List Cell)
    (k : Nat) : (upper ++ lower).rightpad (n + k) 0 = upper ++ lower.rightpad k 0 := by
  have hmissing : n + k - (upper.length + lower.length) = k - lower.length := by omega
  rw [List.rightpad, List.rightpad, List.length_append, hmissing, List.append_assoc]

/-- On no more cells than they take, steps leave none of them and give the padded value. -/
theorem Pads.value {n : Nat} {steps : Lifting α} (h : Pads n steps) (cells : List Cell)
    (hlength : cells.length ≤ n) :
    (steps cells).value = ((steps (cells.rightpad n 0)).value.1, []) := by
  rcases Nat.lt_or_eq_of_le hlength with hlt | heq
  · obtain ⟨f, hsteps, -⟩ := h.short cells hlt
    rw [hsteps]
  · have hfull : cells.rightpad n 0 = cells := by
      rw [List.rightpad, heq, Nat.sub_self, List.replicate_zero, List.append_nil]
    have hsteps := h.takes cells [] heq
    rw [List.append_nil] at hsteps
    rw [hfull]
    exact congrArg Outcome.value hsteps

theorem bind_apply (steps : Lifting α) (next : α → Lifting β) (cells : List Cell) :
    (steps >>= next) cells =
      ⟨(next (steps cells).value.1 (steps cells).value.2).value,
        (steps cells).fault.or (next (steps cells).value.1 (steps cells).value.2).fault⟩ := rfl

/-- Steps in sequence: either the first run out of cells and leave none for the next, or the next
run out of what is left. -/
theorem Pads.bind {n k : Nat} {steps : Lifting α} {next : α → Lifting β} (hs : Pads n steps)
    (hn : ∀ a, Pads k (next a)) : Pads (n + k) (steps >>= next) where
  takes := hs.takes.bind fun a => (hn a).takes
  short cells h := by
    by_cases hcells : cells.length < n
    · have hpad : (cells.rightpad n 0).length = n := by
        rw [List.length_rightpad]
        exact Nat.max_eq_left (Nat.le_of_lt hcells)
      obtain ⟨f, hfirst, hfault⟩ := hs.short cells hcells
      have hwhole := hs.takes (cells.rightpad n 0) (List.replicate k 0) hpad
      rw [← rightpad_add (Nat.le_of_lt hcells)] at hwhole
      have hnone := (hn (steps (cells.rightpad n 0)).value.1).value [] (Nat.zero_le k)
      refine ⟨f, ?_, hfault.imp_right fun hf => ?_⟩
      · rw [bind_apply, bind_apply, hwhole, hfirst]
        exact Outcome.ext hnone rfl
      · rw [bind_apply, hwhole, hf]
        rfl
    · obtain ⟨upper, lower, rfl, hu, -⟩ := exists_append
        (show cells.length = n + (cells.length - n) by omega)
      have hl : lower.length < k := by
        rw [List.length_append] at h
        omega
      have hshort := hs.takes upper lower hu
      have hwhole := hs.takes upper (lower.rightpad k 0) hu
      obtain ⟨f, hnext, hfault⟩ := (hn (steps upper).value.1).short lower hl
      rw [rightpad_append hu, bind_apply, bind_apply, hshort, hwhole]
      dsimp only
      rw [hnext]
      cases (steps upper).fault with
      | none => exact ⟨f, rfl, hfault⟩
      | some g => exact ⟨g, rfl, .inr rfl⟩

/-- So lifting a value, or all arguments in turn, from too few cells gives what it gives from as many
with zeros below, and a fault. -/
theorem stepwise_pads : Stepwise fun _ n steps => Pads n steps := ⟨pads_pop, pads_outcome, Pads.bind⟩

end Lifting

open Lifting

theorem Frame.lower_kept (fr : Frame) (t : HostType) (v : t.Val) (kept : Option Fault) :
    { fr with fault := kept }.lower t v =
      { fr.clear.lower t v with fault := kept.or (fr.clear.lower t v).fault } :=
  congrArg Prod.snd (Frame.blind_lower t v { fr with fault := kept })

/-- A call on too few cells hands the native function the arguments that it is handed on as many
cells with zeros at the bottom, and leaves the same stack, memory and table. It always leaves a
fault: the missing cell, or else the one that the call on the padded stack leaves. -/
theorem run_underflow (params : List HostType) (result : HostType)
    (f : Args params → Reply ν result.Val) (fr : Frame)
    (h : fr.stack.length < (HostFn.ofNative params result f).numParams) :
    let fn := HostFn.ofNative params result (witnessed f)
    let short := fn.run fr
    let full := fn.run { fr with stack := fr.stack.rightpad fn.numParams 0 }
    short.1 = full.1 ∧ short.2 = { full.2 with fault := short.2.fault } ∧
      short.2.fault.isSome = true ∧
      (fr.fault = none →
        (full.2.fault = none → short.2.fault = some .stackUnderflow) ∧
        (short.2.fault = some .stackUnderflow ∨ short.2.fault = full.2.fault)) := by
  intro fn short full
  let padded := fr.stack.rightpad fn.numParams 0
  let o := liftArgs fr.toResources params padded
  let reply := witnessed f o.value.1
  -- the frame without any cells from which either call lowers its result
  let lifted (kept : Option Fault) : Frame :=
    { fr with stack := [], fault := kept, cancelled := fr.cancelled || reply.cancels }
  let lowered := (lifted none).lower result reply.value
  have hpads := stepwise_pads.liftArgs fr.toResources params
  have hlength : padded.length = fn.numParams := by
    rw [List.length_rightpad]
    exact Nat.max_eq_left (Nat.le_of_lt h)
  obtain ⟨e, hshort, he⟩ := hpads.short fr.stack h
  have hfull := hpads.takes padded [] hlength
  rw [List.append_nil] at hfull
  have hrunShort : short =
      (reply.note, (lifted (fr.fault.or (some e))).lower result reply.value) :=
    HostFn.run_of_liftArgs params result (witnessed f) fr hshort
  have hrunFull : full = (reply.note, (lifted (fr.fault.or o.fault)).lower result reply.value) :=
    HostFn.run_of_liftArgs params result (witnessed f) { fr with stack := padded } hfull
  have hkept (kept : Option Fault) : (lifted kept).lower result reply.value =
      { lowered with fault := kept.or lowered.fault } :=
    (lifted none).lower_kept result reply.value kept
  rw [hrunShort, hrunFull, hkept, hkept]
  refine ⟨rfl, rfl, ?_, fun hf => ?_⟩
  · cases fr.fault <;> rfl
  · rw [hf]
    rcases he with rfl | he
    · exact ⟨fun _ => rfl, .inl rfl⟩
    · have ho : o.fault = some e := he
      rw [ho]
      exact ⟨fun hnone => absurd hnone (Option.some_ne_none e), .inr rfl⟩

/-- Of two texts the address of the first is missing, so its bytes are sought at 0. That the second
is too long for the memory is met before. -/
theorem run_underflow_within_text :
    let text : HostType := .mem .text
    let f (args : Args [text, text]) : Reply Unit UInt32 :=
      ⟨(), UInt32.ofNat (args.1.raw.length + args.2.1.raw.length), false⟩
    let fr : Frame := .start ⟨.ofBytes #[104, 105, 33], none, false⟩ [2, 1, 9]
    let fn := HostFn.ofNative [text, text] (.mem (.scalar .u32)) (witnessed f)
    let short := fn.run fr
    let full := fn.run { fr with stack := [9, 1, 2, 0] }
    fr.stack.length < fn.numParams ∧
      short.1 = full.1 ∧ full.1.1 = (⟨0, "hi"⟩, ⟨1, ""⟩, ()) ∧
      short.2.cells = full.2.cells ∧ full.2.cells = [2] ∧
      short.2.fault = full.2.fault ∧ full.2.fault = some (.readOutOfBounds 1 9 3) := by
  intro text f fr fn short full
  obtain ⟨hnote, hframe, -, hfault⟩ :=
    run_underflow [text, text] (.mem (.scalar .u32)) f fr (by decide)
  refine ⟨by decide, hnote, ?_, congrArg Frame.cells hframe, ?_, ?_, ?_⟩
  · decide
  · decide
  · exact (hfault rfl).2.resolve_left (by decide)
  · decide

end HostCall
