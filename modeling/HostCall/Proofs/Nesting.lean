import HostCall.Proofs.Stack
import HostCall.Proofs.StickyFault
import Mathlib.Logic.Equiv.Prod

/-! Pairs within pairs. However types are bracketed into pairs, a value of the nested type is the
values of its leaves in order, takes their slots in order, and is lifted and lowered as they are one
by one. So a host function may take any of its parameters together in nested pairs: neither the guest
nor the call can tell. Main statement: `nesting_transparent`. -/

namespace HostCall

variable {ν : Type}

/-- A way to bracket types into pairs. -/
inductive Nesting where
  | one (t : HostType)
  | both (left right : Nesting)

namespace Nesting

/-- The types that are bracketed, from left to right. -/
def leaves : Nesting → List HostType
  | one t => [t]
  | both l r => l.leaves ++ r.leaves

/-- The type of pairs. -/
def type : Nesting → HostType
  | one t => t
  | both l r => .pair l.type r.type

end Nesting

/-- Some values and further ones, in one row. -/
def Args.append : (ts us : List HostType) → Args ts × Args us ≃ Args (ts ++ us)
  | [], us => Equiv.punitProd (Args us)
  | t :: ts, us =>
    (Equiv.prodAssoc t.Val (Args ts) (Args us)).trans
      (Equiv.prodCongr (Equiv.refl t.Val) (append ts us))

/-- The values in nested pairs, in one row. -/
def Nesting.spread : (n : Nesting) → n.type.Val ≃ Args n.leaves
  | one t => (Equiv.prodPUnit t.Val).symm
  | both l r => (Equiv.prodCongr l.spread r.spread).trans (Args.append l.leaves r.leaves)

/-- The values in all of several nested pairs, in one row. -/
def spreadAll : (ns : List Nesting) → Args (ns.map Nesting.type) ≃ Args (ns.flatMap Nesting.leaves)
  | [] => Equiv.refl _
  | n :: ns =>
    (Equiv.prodCongr n.spread (spreadAll ns)).trans
      (Args.append n.leaves (ns.flatMap Nesting.leaves))

section Slots

theorem flattenSlots_append (xs ys : List (List SlotKind)) :
    flattenSlots (xs ++ ys) = flattenSlots xs ++ flattenSlots ys := List.flatten_append

theorem Nesting.slots_type (n : Nesting) :
    n.type.slots = flattenSlots (n.leaves.map HostType.slots) := by
  induction n with
  | one t => exact (List.append_nil t.slots).symm
  | both l r ihl ihr =>
    rw [type, HostType.slots, ihl, ihr, leaves, List.map_append, flattenSlots_append]

theorem flattenSlots_nested (ns : List Nesting) :
    flattenSlots ((ns.map Nesting.type).map HostType.slots) =
      flattenSlots ((ns.flatMap Nesting.leaves).map HostType.slots) := by
  induction ns with
  | nil => rfl
  | cons n ns ih =>
    rw [List.flatMap_cons, List.map_append, flattenSlots_append, ← ih, ← n.slots_type]
    rfl

end Slots

section Lifting

variable (env : Resources)

theorem liftArgs_cons (t : HostType) (ts : List HostType) :
    liftArgs env (t :: ts) = do
      let rest ← liftArgs env ts
      let first ← t.lift env
      return (first, rest) := rfl

/-- Values in one row are lifted by lifting the later ones and then the earlier ones. -/
theorem liftArgs_append (ts us : List HostType) :
    liftArgs env (ts ++ us) = do
      let later ← liftArgs env us
      let earlier ← liftArgs env ts
      return Args.append ts us (earlier, later) := by
  induction ts with
  | nil => exact (bind_pure (liftArgs env us)).symm
  | cons t ts ih =>
    calc liftArgs env (t :: (ts ++ us))
      _ = (do
          let rest ← liftArgs env (ts ++ us)
          let first ← t.lift env
          return (first, rest)) := rfl
      _ = (do
          let later ← liftArgs env us
          let earlier ← liftArgs env ts
          let first ← t.lift env
          return (first, Args.append ts us (earlier, later))) := by
        rw [ih]
        simp only [bind_assoc, pure_bind]
      _ = _ := by
        rw [liftArgs_cons]
        simp only [bind_assoc, pure_bind]
        rfl

/-- Two lots of values that are spread out when lifted, the later one lifted first. -/
theorem map_lift_both {α β : Type} {ts us : List HostType} {earlier : Lifting α}
    {later : Lifting β} {f : α → Args ts} {g : β → Args us}
    (hf : f <$> earlier = liftArgs env ts) (hg : g <$> later = liftArgs env us) :
    (fun p => Args.append ts us (f p.1, g p.2)) <$> (do
      let b ← later
      let a ← earlier
      return (a, b)) = liftArgs env (ts ++ us) := by
  rw [liftArgs_append, ← hf, ← hg]
  simp only [map_eq_pure_bind, bind_assoc, pure_bind]

theorem Nesting.map_lift (n : Nesting) :
    n.spread <$> n.type.lift env = liftArgs env n.leaves := by
  induction n with
  | one t => rfl
  | both l r ihl ihr => exact map_lift_both env ihl ihr

theorem map_liftArgs (ns : List Nesting) :
    spreadAll ns <$> liftArgs env (ns.map Nesting.type) =
      liftArgs env (ns.flatMap Nesting.leaves) := by
  induction ns with
  | nil => rfl
  | cons n ns ih => exact map_lift_both env (n.map_lift env) ih

end Lifting

namespace Frame

/-- Lowers values one by one, the first one first. -/
def lowerEach (fr : Frame) : (ts : List HostType) → Args ts → Frame
  | [], _ => fr
  | t :: ts, (v, vs) => (fr.lower t v).lowerEach ts vs

theorem lowerEach_append (fr : Frame) (ts us : List HostType) (vs : Args ts) (ws : Args us) :
    fr.lowerEach (ts ++ us) (Args.append ts us (vs, ws)) = (fr.lowerEach ts vs).lowerEach us ws := by
  induction ts generalizing fr with
  | nil => rfl
  | cons t ts ih => exact ih (fr.lower t vs.1) vs.2

/-- The left value of a pair is lowered, then the right one. -/
theorem lower_pair (fr : Frame) (l r : HostType) (v : (HostType.pair l r).Val) :
    fr.lower (.pair l r) v = (fr.lower l v.1).lower r v.2 := by
  let left := l.lower v.1 fr.toResources
  let right := r.lower v.2 left.value.2
  have hstack : (left.value.1 ++ right.value.1).reverse ++ fr.stack =
      right.value.1.reverse ++ (left.value.1.reverse ++ fr.stack) := by
    rw [List.reverse_append, List.append_assoc]
  have hfault : fr.fault.or (left.fault.or (right.fault.or none)) =
      (fr.fault.or left.fault).or right.fault := by rw [Option.or_none, Option.or_assoc]
  exact congr (congrArg (Frame.mk right.value.2) hstack) hfault

theorem lower_nested (fr : Frame) (n : Nesting) (v : n.type.Val) :
    fr.lower n.type v = fr.lowerEach n.leaves (n.spread v) := by
  induction n generalizing fr with
  | one t => rfl
  | both l r ihl ihr =>
    calc fr.lower (.pair l.type r.type) v
      _ = (fr.lower l.type v.1).lower r.type v.2 := fr.lower_pair l.type r.type v
      _ = (fr.lowerEach l.leaves (l.spread v.1)).lowerEach r.leaves (r.spread v.2) := by
        rw [ihl, ihr]
      _ = fr.lowerEach (l.leaves ++ r.leaves)
          (Args.append l.leaves r.leaves (l.spread v.1, r.spread v.2)) :=
        (lowerEach_append ..).symm

theorem taking_map {α β : Type} (fr : Frame) (f : α → β) (steps : Lifting α) :
    fr.taking (f <$> steps) = (f (fr.taking steps).1, (fr.taking steps).2) := by
  refine congrArg (Prod.mk _) (congrArg (Frame.mk _ _) ?_)
  exact congrArg fr.fault.or Option.or_none

theorem lift_nested (fr : Frame) (n : Nesting) :
    (n.spread (fr.lift n.type).1, (fr.lift n.type).2) =
      ((fr.liftEach n.leaves).1, (fr.liftEach n.leaves).2.1) := by
  rw [liftEach_eq, ← n.map_lift, taking_map]
  rfl

end Frame

namespace HostFn

variable (ns : List Nesting) (result : HostType)
  (f : Args (ns.flatMap Nesting.leaves) → Reply ν result.Val)

/-- The native function `f` as one that takes its arguments in nested pairs. -/
def ofNested : HostFn ν :=
  ofNative (ns.map Nesting.type) result fun args => f (spreadAll ns args)

theorem run_ofNested (fr : Frame) :
    (ofNested ns result f).run fr =
      (ofNative (ns.flatMap Nesting.leaves) result f).run fr := by
  rw [ofNested, run_eq, run_eq, ← map_liftArgs, Frame.taking_map]

end HostFn

/-- Bracketing into pairs cannot be seen. A nested type takes the slots of its leaves in order; from
every frame a value of it is lifted as the values of the leaves are, the last one first, and lowered
as they are, the first one first; and a native function that takes its arguments in nested pairs is to
the guest the same as one that takes them in a row, with the same effect on every frame. -/
theorem nesting_transparent (ν : Type) :
    (∀ n : Nesting, n.type.slots = flattenSlots (n.leaves.map HostType.slots)) ∧
    (∀ (n : Nesting) (fr : Frame),
      n.spread (fr.lift n.type).1 = (fr.liftEach n.leaves).1 ∧
      (fr.lift n.type).2 = (fr.liftEach n.leaves).2.1) ∧
    (∀ (n : Nesting) (v : n.type.Val) (fr : Frame),
      fr.lower n.type v = fr.lowerEach n.leaves (n.spread v)) ∧
    ∀ (ns : List Nesting) (result : HostType)
      (f : Args (ns.flatMap Nesting.leaves) → Reply ν result.Val),
      let nested := HostFn.ofNested ns result f
      let flat := HostFn.ofNative (ns.flatMap Nesting.leaves) result f
      nested.paramSlots = flat.paramSlots ∧ nested.results = flat.results ∧
        ∀ fr, nested.run fr = flat.run fr := by
  refine ⟨Nesting.slots_type, ?_, ?_, ?_⟩
  · intro n fr
    exact ⟨congrArg Prod.fst (fr.lift_nested n), congrArg Prod.snd (fr.lift_nested n)⟩
  · intro n v fr
    exact fr.lower_nested n v
  · intro ns result f
    exact ⟨flattenSlots_nested ns, rfl, HostFn.run_ofNested ns result f⟩

end HostCall
