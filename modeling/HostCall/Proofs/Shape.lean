import HostCall.Proofs.Stack

/-! What no codec changes. Lowering puts other bytes into the memory and other values into the
table; where the memory lies, how long it is, whether there is a table and whether the call is
cancelled stays as it was, whatever goes wrong. A native function may cancel its call, but a call
changes nothing else of this either. A property of writing needs to be shown of a single run of bytes
and of steps in sequence only. Main statements: `Writing.Stepwise.write`, `HostType.sameShape_lower`,
`HostFn.sameShape_run`. -/

namespace HostCall

variable {ν α β : Type}

namespace Memory

/-- Memories that differ in their bytes only. -/
structure SameShape (m m' : Memory) : Prop where
  base : m'.base = m.base
  length : m'.bytes.size = m.bytes.size
  size : m'.size = m.size

namespace SameShape

theorem refl (m : Memory) : m.SameShape m := ⟨rfl, rfl, rfl⟩

theorem trans {m₁ m₂ m₃ : Memory} (h : m₁.SameShape m₂) (h' : m₂.SameShape m₃) :
    m₁.SameShape m₃ :=
  ⟨h'.base.trans h.base, h'.length.trans h.length, h'.size.trans h.size⟩

/-- There is only one memory without bytes at the end of the address space. -/
theorem eq_absent {m : Memory} (h : absent.SameShape m) : m = absent := by
  obtain ⟨base, bytes, size⟩ := m
  obtain ⟨hbase, hlength, hsize⟩ := h
  obtain rfl : bytes = #[] := Array.eq_empty_of_size_eq_zero hlength
  obtain rfl : base = Addr.space := hbase
  obtain rfl : size = 0 := hsize
  rfl

end SameShape

theorem sameShape_store (m : Memory) (a : Addr) (bs : Bytes) :
    m.SameShape (m.store a bs).value := by
  unfold store write
  split
  · exact ⟨rfl, size_overwrite _ _ _, rfl⟩
  · exact .refl m

end Memory

namespace Writing

/-- A property that holds of all that is made up of runs of bytes, written one after the other. -/
structure Stepwise (P : (α : Type) → Writing α → Prop) : Prop where
  pure {α : Type} (a : α) : P α (Pure.pure a)
  bytes (a : Addr) (bs : Bytes) : P Unit (Writing.bytes a bs)
  bind {α β : Type} {w : Writing α} {next : α → Writing β} :
    P α w → (∀ a, P β (next a)) → P β (w >>= next)

namespace Stepwise

variable {P : (α : Type) → Writing α → Prop} (h : Stepwise P)
include h

theorem outOfLine (a data : Addr) (bs : Bytes) : P _ (outOfLine a data bs) :=
  h.bind (h.bytes data bs) fun _ => h.bind (h.bytes a _) fun _ => h.pure _

theorem each {σ : Type} {step : σ → α → Writing σ} (hstep : ∀ s x, P σ (step s x)) (s : σ)
    (xs : List α) : P σ (each step s xs) := by
  induction xs generalizing s with
  | nil =>
    rw [each_nil]
    exact h.pure s
  | cons x xs ih =>
    rw [each_cons]
    exact h.bind (hstep s x) ih

theorem elements {size : Nat} {write : α → Addr → Addr → Writing UInt32}
    (hwrite : ∀ x a data, P _ (write x a data)) (xs : List α) (a : Addr) :
    P _ (elements size write xs a) := by
  have helement (position : Addr × Addr) (x : α) : P _ (element size write position x) :=
    h.bind (hwrite x _ _) fun _ => h.pure _
  exact h.bind (h.each helement _ xs) fun _ => h.pure _

theorem write (t : MemType) (v : t.Val) (a data : Addr) : P _ (t.write v a data) := by
  induction t generalizing a data with
  | scalar s => exact h.bind (h.bytes a _) fun _ => h.pure 0
  | bool => exact h.bind (h.bytes a _) fun _ => h.pure 0
  | string => exact h.outOfLine a data _
  | blob => exact h.outOfLine a data _
  | text => exact h.outOfLine a data _
  | bytes => exact h.outOfLine a data _
  | list t ih =>
    refine h.bind (h.elements ih v.raw data) fun taken => ?_
    exact h.bind (h.bytes a _) fun _ => h.pure taken
  | result t e iht ihe =>
    obtain ⟨offset, dataPtr, x | x⟩ := v
    · exact h.bind (h.bytes a _) fun _ => ihe x _ data
    · exact h.bind (h.bytes a _) fun _ => iht x _ data

theorem lower (t : MemType) (v : t.Val) : P _ (t.lower v) := by
  cases t with
  | scalar | bool | string | blob => exact h.pure _
  | text => exact h.bind (h.bytes _ _) fun _ => h.pure _
  | bytes => exact h.bind (h.bytes _ _) fun _ => h.pure _
  | list t => exact h.bind (h.elements (h.write t) v.raw _) fun _ => h.pure _
  | result t e => exact h.bind (h.write (.result t e) v _ _) fun _ => h.pure _

theorem indirect (t : MemType) (v : IndirectList t.Val) : P _ (do
    let _ ← Writing.elements t.size t.write v.raw v.dataPtr
    Writing.header v.offset v.dataPtr (UInt32.ofNat v.raw.length)
    return [v.offset.toUInt64] : Writing (List Cell)) :=
  h.bind (h.elements (h.write t) v.raw _) fun _ => h.bind (h.bytes v.offset _) fun _ => h.pure _

end Stepwise

/-- Steps that change nothing of the memory but its bytes. -/
def KeepsShape (w : Writing α) : Prop :=
  ∀ m : Memory, m.SameShape (w m).value.2

theorem keepsShape_pure (a : α) : KeepsShape (pure a) := Memory.SameShape.refl

theorem KeepsShape.bind {w : Writing α} {next : α → Writing β} (hw : KeepsShape w)
    (hn : ∀ a, KeepsShape (next a)) : KeepsShape (w >>= next) :=
  fun m => (hw m).trans (hn _ _)

theorem keepsShape_bytes (a : Addr) (bs : Bytes) : KeepsShape (bytes a bs) :=
  fun m => m.sameShape_store a bs

theorem stepwise_keepsShape : Stepwise fun _ w => KeepsShape w :=
  ⟨keepsShape_pure, keepsShape_bytes, KeepsShape.bind⟩

end Writing

open Writing

namespace Resources

/-- Resources that differ only in the bytes of the memory and in what is in the table. -/
structure SameShape (env env' : Resources) : Prop where
  memory : env.memory.SameShape env'.memory
  handles : env'.handles.isSome = env.handles.isSome
  cancelled : env'.cancelled = env.cancelled

theorem SameShape.refl (env : Resources) : env.SameShape env := ⟨.refl _, rfl, rfl⟩

theorem SameShape.trans {env₁ env₂ env₃ : Resources} (h : env₁.SameShape env₂)
    (h' : env₂.SameShape env₃) : env₁.SameShape env₃ :=
  ⟨h.memory.trans h'.memory, h'.handles.trans h.handles, h'.cancelled.trans h.cancelled⟩

theorem sameShape_keep (t : HostType) (v : Handle t.Val) (env : Resources) :
    env.SameShape (keep t v env).value.2 := by
  unfold keep
  split
  · exact .refl env
  · next table henv =>
    have hsome : env.handles.isSome = true := Option.isSome_of_eq_some henv
    split
    · exact ⟨.refl _, hsome.symm, rfl⟩
    · exact ⟨.refl _, hsome.symm, rfl⟩

end Resources

theorem Lowering.sameShape_onMemory {w : Writing α} (hw : KeepsShape w) (env : Resources) :
    env.SameShape (onMemory w env).value.2 :=
  ⟨hw env.memory, rfl, rfl⟩

/-- Lowering changes nothing but bytes and what is in the table. -/
theorem HostType.sameShape_lower (t : HostType) (v : t.Val) (env : Resources) :
    env.SameShape (t.lower v env).value.2 := by
  induction t generalizing env with
  | mem t => exact Lowering.sameShape_onMemory (stepwise_keepsShape.lower t v) env
  | indirectList t => exact Lowering.sameShape_onMemory (stepwise_keepsShape.indirect t v) env
  | pair l r ihl ihr => exact (ihl v.1 env).trans (ihr v.2 _)
  | handle t => exact Resources.sameShape_keep t v env
  | _ => exact .refl env

/-- Nor does a call move or lengthen the memory or take the table away. -/
theorem HostFn.sameShape_run (params : List HostType) (result : HostType)
    (f : Args params → Reply ν result.Val) (fr : Frame) :
    let ran := ((ofNative params result f).run fr).2
    fr.memory.SameShape ran.memory ∧ ran.handles.isSome = fr.handles.isSome := by
  intro ran
  let reply := f (fr.taking (liftArgs fr.toResources params)).1
  let env : Resources := { fr.toResources with cancelled := fr.cancelled || reply.cancels }
  have hran : ran.toResources = (result.lower reply.value env).value.2 :=
    congrArg (fun r => r.2.toResources) (run_eq params result f fr)
  have h := result.sameShape_lower reply.value env
  rw [← hran] at h
  exact ⟨h.memory, h.handles⟩

end HostCall
