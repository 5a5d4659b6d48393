import HostCall.HostFn

/-! The kept fault is written and never read. Whatever host code does by lifting, lowering and
calling, however its later steps depend on what the earlier ones gave, it does the same whether or
not a fault is kept from before. So the fault at the end is that of the first step that meets one,
where a call takes a step for each parameter, the last one first, and one for its result. Main
statement: `fault_unobserved`. -/

namespace HostCall

variable {ν α β : Type}

namespace Frame

/-- The frame without its fault. -/
def clear (fr : Frame) : Frame := fr.takeFault.2

/-- What the steps do is what they do where no fault is kept, but for a fault that is kept. -/
def Blind (steps : Frame → α × Frame) : Prop :=
  ∀ fr, steps fr =
    ((steps fr.clear).1,
      { (steps fr.clear).2 with fault := fr.fault.or (steps fr.clear).2.fault })

variable {steps : Frame → α × Frame} {next : α → Frame → β × Frame}

theorem Blind.fault (h : Blind steps) (fr : Frame) :
    (steps fr).2.fault = fr.fault.or (steps fr.clear).2.fault := by rw [h fr]

theorem Blind.clear (h : Blind steps) (fr : Frame) :
    (steps fr.clear).1 = (steps fr).1 ∧ (steps fr.clear).2.clear = (steps fr).2.clear := by
  rw [h fr]
  exact ⟨rfl, rfl⟩

theorem blind_settle (o : Resources → Outcome α) :
    Blind fun fr => fr.settle (o fr.toResources) := by
  intro fr
  simp only [settle, Frame.clear, takeFault, Option.none_or]

theorem blind_taking (s : Resources → Lifting α) :
    Blind fun fr => fr.taking (s fr.toResources) := by
  intro fr
  simp only [taking, Frame.clear, takeFault, Option.none_or]

theorem blind_giving (s : Lowering α) : Blind fun fr => fr.giving s := by
  intro fr
  simp only [giving, Frame.clear, takeFault, Option.none_or]

/-- Steps that touch nothing but the rest of the frame. -/
theorem blind_of_eq {g : Frame → Frame} (hg : ∀ fr f, g { fr with fault := f } =
    { g fr with fault := f }) (a : α) : Blind fun fr => (a, g fr) := by
  intro fr
  have h := hg fr fr.fault
  have hnone := hg fr none
  simp only [Frame.clear, takeFault, hnone, Option.or_none]
  exact congrArg (Prod.mk a) h

/-- Steps in sequence, where what comes next goes by what the first gave. -/
theorem Blind.bind (hs : Blind steps) (hn : ∀ a, Blind (next a)) :
    Blind fun fr => next (steps fr).1 (steps fr).2 := by
  intro fr
  obtain ⟨hvalue, hleft⟩ := hs.clear fr
  have hnext := hn (steps fr).1
  have hwhole := hnext (steps fr).2
  have halone := hnext (steps fr.clear).2
  rw [hleft] at halone
  simp only [hvalue]
  rw [hwhole, halone]
  simp only [hs.fault fr, Option.or_assoc]

theorem blind_lift (t : HostType) : Blind fun fr => fr.lift t := blind_taking t.lift

theorem blind_lower (t : HostType) (v : t.Val) : Blind fun fr => ((), fr.lower t v) :=
  (blind_giving (t.lower v)).bind fun cells =>
    blind_of_eq (g := fun fr => fr.pushAll cells) (fun _ _ => rfl) ()

theorem blind_readValue (t : MemType) (a : Addr) : Blind fun fr => fr.readValue t a :=
  blind_settle fun env => t.read env.memory a

theorem blind_writeValue (t : MemType) (v : t.Val) (a data : Addr) :
    Blind fun fr => fr.writeValue t v a data :=
  blind_giving (Lowering.onMemory (t.write v a data))

end Frame

open HostCall.Frame

theorem HostFn.blind_run (params : List HostType) (result : HostType)
    (f : Args params → Reply ν result.Val) : Blind (ofNative params result f).run := by
  have hcancel (args : Args params) :
      Blind fun fr => ((), if (f args).cancels then fr.cancel else fr) := by
    refine blind_of_eq (fun fr fault => ?_) ()
    split <;> rfl
  have hlower (args : Args params) := (hcancel args).bind fun _ => blind_lower result (f args).value
  have hrun := (blind_taking fun env => liftArgs env params).bind fun args =>
    (hlower args).bind fun _ => blind_of_eq (g := fun fr => fr) (fun _ _ => rfl) (f args).note
  exact hrun

/-- What host code does on a frame by way of the codecs. -/
inductive Operation (ν : Type) where
  | lift (t : HostType)
  | lower (t : HostType) (v : t.Val)
  | readValue (t : MemType) (a : Addr)
  | writeValue (t : MemType) (v : t.Val) (a data : Addr)
  | call (params : List HostType) (result : HostType) (f : Args params → Reply ν result.Val)

/-- The native function `f`, which also notes the arguments that it is given. -/
def witnessed {params : List HostType} {result : HostType} (f : Args params → Reply ν result.Val)
    (args : Args params) : Reply (Args params × ν) result.Val :=
  { f args with note := (args, (f args).note) }

namespace Operation

/-- What an operation gives: the value, the number of bytes, or of a call the arguments that the
native function was given and its note. -/
@[reducible] def Answer : Operation ν → Type
  | lift t => t.Val
  | lower .. => Unit
  | readValue t _ => t.Val
  | writeValue .. => UInt32
  | call params _ _ => Args params × ν

def run : (op : Operation ν) → Frame → op.Answer × Frame
  | lift t, fr => fr.lift t
  | lower t v, fr => ((), fr.lower t v)
  | readValue t a, fr => fr.readValue t a
  | writeValue t v a data, fr => fr.writeValue t v a data
  | call params result f, fr => (HostFn.ofNative params result (witnessed f)).run fr

theorem blind_run (op : Operation ν) : Blind op.run := by
  cases op with
  | lift t => exact blind_lift t
  | lower t v => exact blind_lower t v
  | readValue t a => exact blind_readValue t a
  | writeValue t v a data => exact blind_writeValue t v a data
  | call params result f => exact HostFn.blind_run params result (witnessed f)

end Operation

/-- Lifts arguments one by one, the last one first. Beside them and the frame then come the faults
that the liftings would leave, each in the frame it finds, but without the fault kept there. -/
def Frame.liftEach (fr : Frame) : (ts : List HostType) → Args ts × Frame × List (Option Fault)
  | [] => ((), fr, [])
  | t :: ts =>
    let (rest, found, faults) := fr.liftEach ts
    let (first, left) := found.lift t
    ((first, rest), left, faults ++ [(found.clear.lift t).2.fault])

/-- The faults that the steps of an operation would leave, each in the frame it finds, but without
the fault kept there. -/
def Operation.faults : Operation ν → Frame → List (Option Fault)
  | lift t, fr => [(fr.clear.lift t).2.fault]
  | lower t v, fr => [(fr.clear.lower t v).fault]
  | readValue t a, fr => [(fr.clear.readValue t a).2.fault]
  | writeValue t v a data, fr => [(fr.clear.writeValue t v a data).2.fault]
  | call params result f, fr =>
    let (args, found, faults) := fr.liftEach params
    let found := if (f args).cancels then found.cancel else found
    faults ++ [(found.clear.lower result (f args).value).fault]

/-- Host code that goes by what its operations give. -/
inductive Session (ν : Type) where
  | done
  | act (op : Operation ν) (next : op.Answer → Session ν)

namespace Session

/-- What the operations give, one after the other, and the frame at the end. -/
def run : Session ν → Frame → List ((op : Operation ν) × op.Answer) × Frame
  | done, fr => ([], fr)
  | act op next, fr =>
    let (answer, fr) := op.run fr
    let (later, fr) := (next answer).run fr
    (⟨op, answer⟩ :: later, fr)

/-- The faults that all steps would leave, each in the frame it finds, but without the fault kept
there. -/
def faults : Session ν → Frame → List (Option Fault)
  | done, _ => []
  | act op next, fr => op.faults fr ++ (next (op.run fr).1).faults (op.run fr).2

theorem blind_run (session : Session ν) : Blind session.run := by
  induction session with
  | done => exact blind_of_eq (g := fun fr => fr) (fun _ _ => rfl) []
  | act op next ih =>
    have hrun := op.blind_run.bind fun answer => (ih answer).bind fun later =>
      blind_of_eq (g := fun fr => fr) (fun _ _ => rfl)
        ((⟨op, answer⟩ : (op : Operation ν) × op.Answer) :: later)
    exact hrun

end Session

namespace Frame

theorem taking_bind (fr : Frame) (first : Lifting α) (second : α → Lifting β) :
    fr.taking (first >>= second) = (fr.taking first).2.taking (second (fr.taking first).1) := by
  refine Prod.ext rfl ?_
  exact congrArg (Frame.mk _ _) Option.or_assoc.symm

/-- A call lifts its arguments as if they were lifted one by one. -/
theorem liftEach_eq (fr : Frame) (ts : List HostType) :
    ((fr.liftEach ts).1, (fr.liftEach ts).2.1) = fr.taking (liftArgs fr.toResources ts) := by
  induction ts with
  | nil => exact congrArg (Prod.mk ()) (congrArg (Frame.mk _ _) Option.or_none.symm)
  | cons t ts ih =>
    have hsplit : liftArgs fr.toResources (t :: ts) = liftArgs fr.toResources ts >>= fun rest =>
      t.lift fr.toResources >>= fun first => pure (first, rest) := rfl
    let found := (fr.liftEach ts).2.1
    -- lifting leaves the resources as they are
    have henv : found.toResources = fr.toResources :=
      congrArg (fun lifted => lifted.2.toResources) ih
    have hlift : found.lift t = found.taking (t.lift fr.toResources) := by
      rw [← henv]
      rfl
    rw [hsplit, taking_bind, taking_bind, ← ih]
    change (((found.lift t).1, (fr.liftEach ts).1), (found.lift t).2) = _
    rw [hlift]
    exact congrArg (Prod.mk _) (congrArg (Frame.mk _ _) Option.or_none.symm)

theorem fault_liftEach (fr : Frame) (ts : List HostType) :
    (fr.liftEach ts).2.1.fault = fr.fault.or ((fr.liftEach ts).2.2.findSome? id) := by
  induction ts with
  | nil => exact Option.or_none.symm
  | cons t ts ih =>
    have hlift := (blind_lift t).fault (fr.liftEach ts).2.1
    change ((fr.liftEach ts).2.1.lift t).2.fault =
      fr.fault.or (((fr.liftEach ts).2.2 ++ [_]).findSome? id)
    rw [hlift, ih, List.findSome?_append, Option.or_assoc, List.findSome?_singleton]
    rfl

end Frame

/-- The fault at the end of an operation is the first that one of its steps leaves, where none was
kept before. -/
theorem Operation.fault_run (op : Operation ν) (fr : Frame) :
    (op.run fr).2.fault = fr.fault.or ((op.faults fr).findSome? id) := by
  have single (f : Option Fault) : [f].findSome? id = f := List.findSome?_singleton
  cases op with
  | lift t => rw [faults, single]; exact (blind_lift t).fault fr
  | lower t v => rw [faults, single]; exact (blind_lower t v).fault fr
  | readValue t a => rw [faults, single]; exact (blind_readValue t a).fault fr
  | writeValue t v a data => rw [faults, single]; exact (blind_writeValue t v a data).fault fr
  | call params result f =>
    let args := (fr.liftEach params).1
    let found : Frame :=
      if (f args).cancels then (fr.liftEach params).2.1.cancel else (fr.liftEach params).2.1
    have hrun : ((call params result f).run fr).2 = found.lower result (f args).value := by
      simp only [run, HostFn.ofNative, ← fr.liftEach_eq params]
      rfl
    have hkept : found.fault = (fr.liftEach params).2.1.fault := by
      simp only [found]
      split <;> rfl
    have hlower := (blind_lower result (f args).value).fault found
    change _ = fr.fault.or (((fr.liftEach params).2.2 ++
      [(found.clear.lower result (f args).value).fault]).findSome? id)
    rw [hrun, List.findSome?_append, single, ← Option.or_assoc, ← fault_liftEach, ← hkept]
    exact hlower

theorem Session.fault_run (session : Session ν) (fr : Frame) :
    (session.run fr).2.fault = fr.fault.or ((session.faults fr).findSome? id) := by
  induction session generalizing fr with
  | done => exact Option.or_none.symm
  | act op next ih =>
    change ((next (op.run fr).1).run (op.run fr).2).2.fault = _
    rw [ih, op.fault_run, Session.faults, List.findSome?_append, Option.or_assoc]

theorem Frame.Blind.run_kept {steps : Frame → α × Frame} (h : Blind steps) (fr : Frame)
    (e : Fault) :
    steps { fr with fault := some e } =
      ((steps fr.clear).1, { (steps fr.clear).2 with fault := some e }) :=
  h { fr with fault := some e }

/-- A kept fault stays and changes nothing else: with it every operation, a call among them, and all
that host code makes of operations give the same values, hand the same arguments to native functions
and leave the same stack, memory and table as without it. From a frame without a fault the kept one
is at last the first that a step leaves in the frame it finds, when no fault is kept there. -/
theorem fault_unobserved (ν : Type) :
    (∀ (op : Operation ν) (fr : Frame) (e : Fault),
      op.run { fr with fault := some e } =
        ((op.run fr.clear).1, { (op.run fr.clear).2 with fault := some e })) ∧
    (∀ (session : Session ν) (fr : Frame) (e : Fault),
      session.run { fr with fault := some e } =
        ((session.run fr.clear).1, { (session.run fr.clear).2 with fault := some e })) ∧
    ∀ (session : Session ν) (fr : Frame),
      (session.run fr.clear).2.fault = (session.faults fr.clear).findSome? id := by
  refine ⟨fun op fr e => op.blind_run.run_kept fr e, fun session fr e =>
    session.blind_run.run_kept fr e, fun session fr => ?_⟩
  rw [session.fault_run]
  exact Option.none_or

/-- Of two texts that a call without memory is given, the second is lifted first. A host that goes
on by lifting from the empty stack leaves no other fault. -/
example :
    let text : HostType := .mem .text
    let session : Session Unit := .act (.call [text, text] .unit fun _ => ⟨(), (), false⟩) fun _ =>
      .act (.lift text) fun _ => .done
    let fr : Frame := .start ⟨.absent, none, false⟩ [4, 1, 8, 2]
    session.faults fr = [some (.readOutOfBounds 8 2 0), some (.readOutOfBounds 4 1 0), none,
        some .stackUnderflow] ∧
      (session.run fr).2.fault = some (.readOutOfBounds 8 2 0) := by
  decide

end HostCall
