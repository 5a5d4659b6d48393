import HostCall.HostFn

/-! What values do to the operand stack. Lifting takes the slots of its type off the top, cannot see
the cells below them and leaves them as they are; lowering pushes as many cells. Both hold whether
or not anything goes wrong on the way, so a call replaces its arguments by its results. A property
of lifting needs to be shown of a single cell, of steps beside the stack and of steps in sequence
only. Main statements: `Lifting.Stepwise.lift`, `slot_discipline`. -/

namespace HostCall

variable {α β : Type}

namespace Lifting

/-- Steps that take the top `n` cells and neither see nor touch the others. -/
def Takes (n : Nat) (steps : Lifting α) : Prop :=
  ∀ top below : List Cell, top.length = n →
    steps (top ++ below) = ⟨((steps top).value.1, below), (steps top).fault⟩

theorem takes_outcome (o : Outcome α) : Takes 0 (liftM o : Lifting α) := by
  intro top below h
  obtain rfl := List.length_eq_zero_iff.1 h
  rfl

theorem takes_pop : Takes 1 pop := by
  intro top below h
  obtain ⟨c, rfl⟩ := List.length_eq_one_iff.1 h
  rfl

theorem exists_append {top : List Cell} {n k : Nat} (h : top.length = n + k) :
    ∃ upper lower, top = upper ++ lower ∧ upper.length = n ∧ lower.length = k :=
  ⟨top.take n, top.drop n, (List.take_append_drop n top).symm,
    by rw [List.length_take]; omega, by rw [List.length_drop]; omega⟩

/-- Steps in sequence take what each of them takes. -/
theorem Takes.bind {n k : Nat} {steps : Lifting α} {next : α → Lifting β}
    (hs : Takes n steps) (hn : ∀ a, Takes k (next a)) : Takes (n + k) (steps >>= next) := by
  intro top below h
  obtain ⟨upper, lower, rfl, hu, hl⟩ := exists_append h
  -- the first steps leave `lower ++ below`, of which the next ones take `lower`
  have hwhole := hs upper (lower ++ below) hu
  have halone := hs upper lower hu
  have hnext := hn (steps upper).value.1 lower below hl
  rw [List.append_assoc]
  apply Outcome.ext
  · change (next (steps (upper ++ (lower ++ below))).value.1 _).value = _
    rw [hwhole, hnext]
    change _ = ((next (steps (upper ++ lower)).value.1 _).value.1, below)
    rw [halone]
  · change (steps (upper ++ (lower ++ below))).fault.or
      (next (steps (upper ++ (lower ++ below))).value.1 _).fault = _
    rw [hwhole, hnext]
    change _ = (steps (upper ++ lower)).fault.or (next (steps (upper ++ lower)).value.1 _).fault
    rw [halone]

/-- A property that holds, for the number of cells that are taken, of all that is made up of taking
one cell at a time and of steps beside the stack. -/
structure Stepwise (P : (α : Type) → Nat → Lifting α → Prop) : Prop where
  pop : P Cell 1 pop
  outcome {α : Type} (o : Outcome α) : P α 0 (liftM o)
  bind {α β : Type} {n k : Nat} {steps : Lifting α} {next : α → Lifting β} :
    P α n steps → (∀ a, P β k (next a)) → P β (n + k) (steps >>= next)

namespace Stepwise

variable {P : (α : Type) → Nat → Lifting α → Prop} (h : Stepwise P)
include h

theorem pure (a : α) : P α 0 (Pure.pure a) := h.outcome (Pure.pure a)

theorem map {n : Nat} {steps : Lifting α} (hs : P α n steps) (f : α → β) :
    P β n (steps >>= fun a => Pure.pure (f a)) :=
  h.bind hs fun a => h.pure (f a)

theorem popWord : P _ 1 popWord := h.map h.pop _

theorem popRegion : P _ 2 popRegion :=
  h.bind h.popWord fun length => h.map h.popWord fun a => (a, length)

/-- What is found beside the stack once an address and a length are taken. -/
theorem region {next : Addr × UInt32 → Lifting α} (hn : ∀ r, P α 0 (next r)) :
    P α 2 (Lifting.popRegion >>= next) := h.bind h.popRegion hn

theorem liftMem (m : Memory) (t : MemType) : P _ t.slots.length (t.lift m) := by
  cases t with
  | scalar s => exact h.map h.pop _
  | bool => exact h.map h.pop _
  | string =>
    refine h.region fun (a, length) => ?_
    exact h.bind (h.outcome (m.load a length)) fun bs => h.outcome (readText a bs)
  | blob => exact h.region fun (a, length) => h.outcome (m.load a length)
  | text =>
    refine h.region fun (a, length) => ?_
    exact h.bind (h.outcome (m.load a length)) fun bs => h.map (h.outcome (readText a bs)) _
  | bytes => exact h.region fun (a, length) => h.map (h.outcome (m.load a length)) _
  | list t =>
    exact h.region fun (a, count) =>
      h.map (h.outcome (m.loadElements t.size (t.read m) a count)) _
  | result t e => exact h.bind (k := 0) h.popWord fun a => h.outcome _

theorem lift (env : Resources) (t : HostType) : P _ t.slots.length (t.lift env) := by
  induction t with
  | mem t => exact h.liftMem env.memory t
  | intPtr | duration | time => exact h.map h.pop _
  | uintPtr => exact h.pop
  | unit | context | counter => exact h.pure _
  | complex64 => exact h.bind h.pop fun re => h.map h.pop _
  | complex128 => exact h.bind h.pop fun re => h.map h.pop _
  | indirectList t =>
    refine h.bind (k := 0) h.popWord fun a => ?_
    refine h.bind (k := 0) (h.outcome (env.memory.loadHeader a)) fun (pointer, count) => ?_
    exact h.map (h.outcome (env.memory.loadElements t.size (t.read env.memory) pointer count)) _
  | pair l r ihl ihr =>
    have hpair := h.bind ihr fun right => h.map ihl fun left => (left, right)
    rwa [Nat.add_comm, ← List.length_append] at hpair
  | handle t =>
    exact h.bind (k := 0) h.popWord fun id => h.map (h.outcome (env.resolve t id)) _

/-- The arguments of a call take the slots of all its parameters. -/
theorem liftArgs (env : Resources) (ts : List HostType) :
    P _ (flattenSlots (ts.map HostType.slots)).length (liftArgs env ts) := by
  induction ts with
  | nil => exact h.pure _
  | cons t ts ih =>
    have hargs := h.bind ih fun rest => h.map (h.lift env t) fun first => (first, rest)
    rw [Nat.add_comm, flattenSlots, ← List.length_append] at hargs
    exact hargs

end Stepwise

theorem stepwise_takes : Stepwise fun _ n steps => Takes n steps :=
  ⟨takes_pop, takes_outcome, Takes.bind⟩

theorem Takes.map {n : Nat} {steps : Lifting α} (hs : Takes n steps) (f : α → β) :
    Takes n (steps >>= fun a => pure (f a)) := stepwise_takes.map hs f

theorem takes_popWord : Takes 1 popWord := stepwise_takes.popWord

theorem takes_popRegion : Takes 2 popRegion := stepwise_takes.popRegion

end Lifting

open Lifting

/-- Lifting takes the slots of its type off the top and depends on no other cell. -/
theorem HostType.takes_lift (env : Resources) (t : HostType) :
    Takes t.slots.length (t.lift env) := stepwise_takes.lift env t

theorem takes_liftArgs (env : Resources) (ts : List HostType) :
    Takes (flattenSlots (ts.map HostType.slots)).length (liftArgs env ts) :=
  stepwise_takes.liftArgs env ts

theorem MemType.length_lower (t : MemType) (ht : t.lowerable = true) (v : t.Val) (m : Memory) :
    (t.lower v m).value.1.length = t.slots.length := by
  cases t with
  | string | blob => contradiction
  | _ => rfl

/-- Lowering gives a cell for each slot, wherever its writes go and whether or not there is a table
to keep a host value in. -/
theorem HostType.length_lower (t : HostType) (ht : t.lowerable = true) (v : t.Val)
    (env : Resources) : (t.lower v env).value.1.length = t.slots.length := by
  induction t generalizing env with
  | mem t => exact t.length_lower ht v env.memory
  | context | counter => contradiction
  | pair l r ihl ihr =>
    obtain ⟨hl, hr⟩ := (Bool.and_eq_true _ _).mp ht
    have hleft := ihl hl v.1 env
    have hright := ihr hr v.2 (l.lower v.1 env).value.2
    change ((l.lower v.1 env).value.1 ++ (r.lower v.2 _).value.1).length = _
    rw [List.length_append, hleft, hright, slots, List.length_append]
  | _ => rfl

namespace Frame

theorem stack_eq {fr : Frame} {base top : List Cell} (h : fr.cells = base ++ top) :
    fr.stack = top.reverse ++ base.reverse := by
  rw [← List.reverse_append, ← h, cells, List.reverse_reverse]

theorem stack_taking {n : Nat} {steps : Lifting α} (hs : Takes n steps) (fr : Frame)
    (hn : n ≤ fr.stack.length) : (fr.taking steps).2.stack = fr.stack.drop n := by
  have htop : (fr.stack.take n).length = n := List.length_take_of_le hn
  have h := hs (fr.stack.take n) (fr.stack.drop n) htop
  rw [List.take_append_drop] at h
  change (steps fr.stack).value.2 = _
  rw [h]

theorem ite_cancel (fr : Frame) (b : Bool) :
    (if b then fr.cancel else fr) = { fr with cancelled := fr.cancelled || b } := by
  cases b with
  | true =>
    rw [Bool.or_true]
    rfl
  | false =>
    rw [Bool.or_false]
    rfl

theorem stack_lower (fr : Frame) (t : HostType) (v : t.Val) :
    (fr.lower t v).stack = (t.lower v fr.toResources).value.1.reverse ++ fr.stack := rfl

/-- Of a result only its address is lifted, the rest is read there. -/
theorem lift_result (fr : Frame) (t e : MemType) (a : Addr) :
    { fr with stack := a.toUInt64 :: fr.stack }.lift (.mem (.result t e)) =
      fr.readValue (.result t e) a := by
  have hread : (MemType.result t e).lift fr.memory (a.toUInt64 :: fr.stack) =
      ⟨(((MemType.result t e).read fr.memory a).value, fr.stack),
        ((MemType.result t e).read fr.memory a).fault⟩ := by
    have haddr : (MemType.result t e).read fr.memory a.toUInt64.toUInt32 =
        (MemType.result t e).read fr.memory a := by rw [UInt32.toUInt32_toUInt64]
    rw [← haddr]
    exact Outcome.ext rfl Option.or_none
  unfold lift taking
  rw [HostType.lift, hread]
  rfl

theorem writeValue_eq (fr : Frame) (t : MemType) (v : t.Val) (a data : Addr) :
    fr.writeValue t v a data =
      ((t.write v a data fr.memory).value.1,
        { fr with
          memory := (t.write v a data fr.memory).value.2
          fault := fr.fault.or (t.write v a data fr.memory).fault }) := by
  have hwrite : Lowering.onMemory (t.write v a data) fr.toResources =
      ⟨((t.write v a data fr.memory).value.1,
        { fr.toResources with memory := (t.write v a data fr.memory).value.2 }),
        (t.write v a data fr.memory).fault⟩ := Outcome.ext rfl Option.or_none
  unfold writeValue giving
  rw [hwrite]

/-- A result is written and its address pushed. -/
theorem lower_result (fr : Frame) (t e : MemType) (v : (MemType.result t e).Val) :
    fr.lower (.mem (.result t e)) v =
      { (fr.writeValue (.result t e) v v.offset v.dataPtr).2 with
        stack := v.offset.toUInt64 :: fr.stack } := by
  let o := (MemType.result t e).write v v.offset v.dataPtr fr.memory
  have hlower : (HostType.mem (.result t e)).lower v fr.toResources =
      ⟨([v.offset.toUInt64], { fr.toResources with memory := o.value.2 }), o.fault⟩ :=
    Outcome.ext rfl (Option.or_none.trans Option.or_none)
  rw [writeValue_eq]
  unfold lower giving
  rw [hlower]
  rfl

end Frame

namespace HostFn

variable {ν : Type} (params : List HostType) (result : HostType)
  (f : Args params → Reply ν result.Val) (fr : Frame)

/-- A call lowers what the native function makes of the lifted arguments. -/
theorem run_eq :
    let taken := fr.taking (liftArgs fr.toResources params)
    let reply := f taken.1
    (ofNative params result f).run fr =
      (reply.note, { taken.2 with cancelled := taken.2.cancelled || reply.cancels : Frame }.lower
        result reply.value) := by
  simp only [ofNative, Frame.ite_cancel]

/-- A call goes by what its arguments are lifted to, by what that leaves of the stack and by the fault
that it meets. -/
theorem run_of_liftArgs {args : Args params} {rest : List Cell} {fault : Option Fault}
    (h : liftArgs fr.toResources params fr.stack = ⟨(args, rest), fault⟩) :
    (ofNative params result f).run fr =
      ((f args).note,
        { fr with
          stack := rest
          fault := fr.fault.or fault
          cancelled := fr.cancelled || (f args).cancels : Frame }.lower result (f args).value) := by
  have htaking : fr.taking (liftArgs fr.toResources params) =
      (args, { fr with stack := rest, fault := fr.fault.or fault }) := by
    rw [Frame.taking, h]
  rw [run_eq, htaking]

/-- A call pushes a cell for each result slot on what lifting the arguments leaves. -/
theorem stack_run (hr : result.lowerable = true) :
    ∃ pushed, pushed.length = result.slots.length ∧
      ((ofNative params result f).run fr).2.stack =
        pushed ++ (fr.taking (liftArgs fr.toResources params)).2.stack := by
  rw [run_eq]
  refine ⟨_, ?_, Frame.stack_lower _ result _⟩
  rw [List.length_reverse, result.length_lower hr]

end HostFn

/-- Every path through lifting, lowering and a call keeps to the declared slots. Nothing is asked of
the memory, of the table or of the fault kept so far, nor that the call meets no fault. -/
theorem slot_discipline :
    (∀ (t : HostType) (fr : Frame), t.slots.length ≤ fr.stack.length →
      (fr.lift t).2.stack = fr.stack.drop t.slots.length ∧
      (fr.lift t).2.toResources = fr.toResources) ∧
    (∀ (t : HostType) (v : t.Val) (fr : Frame), t.lowerable = true →
      ∃ pushed, pushed.length = t.slots.length ∧ (fr.lower t v).stack = pushed ++ fr.stack) ∧
    ∀ (ν : Type) (params : List HostType) (result : HostType)
      (f : Args params → Reply ν result.Val) (fr : Frame) (base args : List Cell),
      result.lowerable = true → fr.cells = base ++ args →
      args.length = (HostFn.ofNative params result f).numParams →
      ∃ results, results.length = (HostFn.ofNative params result f).numResults ∧
        ((HostFn.ofNative params result f).run fr).2.cells = base ++ results := by
  refine ⟨?_, ?_, ?_⟩
  · intro t fr hn
    exact ⟨Frame.stack_taking (t.takes_lift _) fr hn, rfl⟩
  · intro t v fr ht
    refine ⟨_, ?_, fr.stack_lower t v⟩
    rw [List.length_reverse, t.length_lower ht]
  · intro ν params result f fr base args hresult hcells hargs
    have hstack := Frame.stack_eq hcells
    have hlength : args.reverse.length = (flattenSlots (params.map HostType.slots)).length := by
      rw [List.length_reverse, hargs]
      rfl
    obtain ⟨pushed, hpushed, hrun⟩ := HostFn.stack_run params result f fr hresult
    have htaken := Frame.stack_taking (takes_liftArgs fr.toResources params) fr
      (by rw [hstack, List.length_append]; omega)
    rw [htaken, hstack, List.drop_left' hlength] at hrun
    refine ⟨pushed.reverse, by rw [List.length_reverse, hpushed]; rfl, ?_⟩
    rw [Frame.cells, hrun, List.reverse_append, List.reverse_reverse]

/-- Without memory, table or a clean start: a lifted text takes its two cells, a lowered handle
pushes its one, and a call swaps the two for the one. -/
theorem slot_discipline_without_memory :
    let env : Resources := ⟨.absent, none, false⟩
    let fr : Frame := ⟨env, [3, 2, 1], some .stackUnderflow⟩
    let text : HostType := .mem .text
    let fn : HostFn Unit := .ofPure [text] (.handle .uintPtr) fun _ => ⟨7, 5⟩
    (fr.lift text).2.stack = [1] ∧
    (∃ pushed : List Cell, pushed.length = 1 ∧
      (fr.lower (.handle .uintPtr) ⟨7, 5⟩).stack = pushed ++ [3, 2, 1]) ∧
    ∃ results : List Cell, results.length = 1 ∧ (fn.run fr).2.cells = [1] ++ results := by
  intro env fr text fn
  exact ⟨(slot_discipline.1 text fr (by decide)).1,
    slot_discipline.2.1 (.handle .uintPtr) ⟨7, 5⟩ fr rfl,
    slot_discipline.2.2 Unit [text] (.handle .uintPtr) _ fr [1] [2, 3] rfl rfl rfl⟩

end HostCall
