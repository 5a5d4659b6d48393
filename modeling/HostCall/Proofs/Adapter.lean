import HostCall.Proofs.Stack

/-! What a call does. Its arguments are taken off the stack from the last to the first, but each of
them is what its own cells give on a stack without any others, and the native function gets them in
the order of its parameters. -/

namespace HostCall

/-- The cells of a call's arguments: to each parameter as many as it has slots. -/
@[reducible] def Groups : List HostType → Type
  | [] => Unit
  | t :: ts => { group : List Cell // group.length = t.slots.length } × Groups ts

namespace Groups

/-- The groups side by side, from bottom to top. -/
def cells : {ts : List HostType} → Groups ts → List Cell
  | [], _ => []
  | _ :: _, (group, groups) => group.1 ++ cells groups

/-- What lifting each group alone gives. -/
def args (env : Resources) : {ts : List HostType} → Groups ts → Args ts
  | [], _ => ()
  | t :: _, (group, groups) => (((Frame.start env group.1).lift t).1, args env groups)

/-- The fault met when the groups are lifted, each alone: that of the last one which meets any. -/
def fault (env : Resources) : {ts : List HostType} → Groups ts → Option Fault
  | [], _ => none
  | t :: _, (group, groups) => (fault env groups).or ((Frame.start env group.1).lift t).2.fault

variable {ts : List HostType}

theorem length_cells (groups : Groups ts) :
    groups.cells.length = (flattenSlots (ts.map HostType.slots)).length := by
  induction ts with
  | nil => rfl
  | cons t ts ih =>
    obtain ⟨group, groups⟩ := groups
    calc
      (group.1 ++ groups.cells).length = t.slots.length + (flattenSlots _).length := by
        rw [List.length_append, group.2, ih groups]
      _ = (flattenSlots ((t :: ts).map HostType.slots)).length := (List.length_append ..).symm

/-- Lifting alone leaves nothing of the group. -/
theorem lift_group (env : Resources) (t : HostType)
    (group : { group : List Cell // group.length = t.slots.length }) :
    t.lift env group.1.reverse =
      ⟨(((Frame.start env group.1).lift t).1, []), ((Frame.start env group.1).lift t).2.fault⟩ := by
  have h := t.takes_lift env group.1.reverse [] (by rw [List.length_reverse, group.2])
  rw [List.append_nil] at h
  rw [h]
  rfl

theorem liftArgs_cells (env : Resources) (groups : Groups ts) :
    liftArgs env ts groups.cells.reverse = ⟨(groups.args env, []), groups.fault env⟩ := by
  induction ts with
  | nil => rfl
  | cons t ts ih =>
    obtain ⟨group, groups⟩ := groups
    -- the later arguments lie above the first one and do not see its cells
    have habove := takes_liftArgs env ts groups.cells.reverse group.1.reverse
      (by rw [List.length_reverse, groups.length_cells])
    rw [ih groups] at habove
    have hsplit : liftArgs env (t :: ts) (groups.cells.reverse ++ group.1.reverse) =
        liftArgs env ts (groups.cells.reverse ++ group.1.reverse) >>= fun later =>
          t.lift env later.2 >>= fun first => pure ((first.1, later.1), first.2) := rfl
    change liftArgs env (t :: ts) (group.1 ++ groups.cells).reverse = _
    rw [List.reverse_append, hsplit, habove]
    apply Outcome.ext
    · simp only [Outcome.value_bind, lift_group]
      rfl
    · simp only [Outcome.fault_bind, lift_group, Outcome.fault_pure, Option.or_none]
      rfl

end Groups

/-- A call applies the native function to its arguments in the order of the parameters, each of them
what lifting its group alone gives, also where that meets a fault. Then it lowers the value on
what lay below the groups. -/
theorem run_ofNative {ν : Type} (params : List HostType) (result : HostType)
    (f : Args params → Reply ν result.Val) (fr : Frame) (base : List Cell)
    (groups : Groups params) (h : fr.cells = base ++ groups.cells) :
    let reply := f (groups.args fr.toResources)
    (HostFn.ofNative params result f).run fr =
      (reply.note,
        { fr with
          stack := base.reverse
          fault := fr.fault.or (groups.fault fr.toResources)
          cancelled := fr.cancelled || reply.cancels : Frame }.lower result reply.value) := by
  intro reply
  have hstack := Frame.stack_eq h
  have hlift := takes_liftArgs fr.toResources params groups.cells.reverse base.reverse
    (by rw [List.length_reverse, groups.length_cells])
  rw [groups.liftArgs_cells, ← hstack] at hlift
  have htaking : fr.taking (liftArgs fr.toResources params) =
      (groups.args fr.toResources,
        { fr with
          stack := base.reverse
          fault := fr.fault.or (groups.fault fr.toResources) }) := by
    rw [Frame.taking, hlift]
  simp only [HostFn.ofNative, htaking, Frame.ite_cancel]
  rfl

/-- Two words change places, though the bytes in front of them cannot be read and a parameter
between them has no cell. -/
theorem run_ofNative_swap :
    let word : HostType := .mem (.scalar .u32)
    let params : List HostType := [.mem .bytes, .pair word .context, word]
    let swap (args : Args params) : Reply Bool (UInt32 × UInt32) :=
      match args with
      | (_, (x, c), y, ()) => ⟨c.cancelled, (y, x), false⟩
    let env : Resources := ⟨.absent, none, true⟩
    let fr : Frame := ⟨env, [5, 12, 3, 8, 1], none⟩
    let groups : Groups params := (⟨[8, 3], rfl⟩, ⟨[12], rfl⟩, ⟨[5], rfl⟩, ())
    fr.cells = [1] ++ groups.cells ∧
      (HostFn.ofNative params (.pair word word) swap).run fr =
        (true, ⟨env, [12, 5, 1], some (.readOutOfBounds 8 3 0)⟩) := by
  intro word params swap env fr groups
  have hcells : fr.cells = [1] ++ groups.cells := rfl
  exact ⟨hcells, (run_ofNative params (.pair word word) swap fr [1] groups hcells).trans rfl⟩

end HostCall
