import Mathlib.Data.List.Forall2
import HostCall.Proofs.ResultTag

/-! Values that are all in their cells: numbers, truth values, durations, complex numbers and pairs
of these. Lifting is a left inverse of lowering on them, and every cell can be lifted. So the cells
that are pushed again as they were lifted are those that lowering pushes for some value; which these
are is told slot by slot, in numbers. Main statements: `Scalar.toCell_ofCell_iff`,
`HostType.exists_lift_eq`, `lift_lower_plain`. -/

namespace HostCall

/-- Which cells a slot can be pushed with. -/
inductive CellForm where
  | below (bound : Nat)
  /-- The numbers from `-bound` up to `bound`, in two's complement on 32 bits. -/
  | signed (bound : Nat)
  | any

namespace CellForm

def Canonical : CellForm → Cell → Prop
  | below bound, c => c.toNat < bound
  | signed bound, c => c.toNat < bound ∨ Addr.space - bound ≤ c.toNat ∧ c.toNat < Addr.space
  | any, _ => True

instance decidableCanonical : ∀ (f : CellForm) (c : Cell), Decidable (f.Canonical c)
  | below _, _ => inferInstanceAs (Decidable (_ < _))
  | signed _, _ => inferInstanceAs (Decidable (_ ∨ _ ∧ _))
  | any, _ => inferInstanceAs (Decidable True)

end CellForm

namespace Scalar

def form : Scalar → CellForm
  | u8 => .below 0x100
  | u16 => .below 0x10000
  | i8 => .signed 0x80
  | i16 => .signed 0x8000
  | u32 | i32 | f32 => .below Addr.space
  | u64 | i64 | f64 => .any

/-- A cell is pushed again as it was lifted just where it has the form of its slot. -/
theorem toCell_ofCell_iff (s : Scalar) (c : Cell) :
    s.toCell (s.ofCell c) = c ↔ s.form.Canonical c := by
  rw [← UInt64.toNat_inj]
  cases s with
  | i8 =>
    have hcell : (i8.toCell (i8.ofCell c)).toNat =
        ((BitVec.ofNat 8 c.toNat).signExtend 32).toNat := rfl
    rw [hcell]
    simp only [BitVec.toNat_signExtend, BitVec.toNat_setWidth, BitVec.toNat_ofNat,
      BitVec.msb_eq_decide, decide_eq_true_eq, form, CellForm.Canonical, Addr.space]
    split <;> omega
  | i16 =>
    have hcell : (i16.toCell (i16.ofCell c)).toNat =
        ((BitVec.ofNat 16 c.toNat).signExtend 32).toNat := rfl
    rw [hcell]
    simp only [BitVec.toNat_signExtend, BitVec.toNat_setWidth, BitVec.toNat_ofNat,
      BitVec.msb_eq_decide, decide_eq_true_eq, form, CellForm.Canonical, Addr.space]
    split <;> omega
  | u8 | u16 | u32 | i32 | f32 =>
    simp [toCell, ofCell, ofBits, toBits, form, CellForm.Canonical, Addr.space]
    omega
  | u64 | i64 | f64 => simp [toCell, ofCell, ofBits, toBits, form, CellForm.Canonical]

end Scalar

theorem Lifting.bind_of_eq_pure {α β : Type} {steps : Lifting α} {next : α → Lifting β}
    {cells rest : List Cell} {a : α} (h : steps cells = pure (a, rest)) :
    (steps >>= next) cells = next a rest := by
  change (steps cells >>= fun r => next r.1 r.2) = _
  rw [h, pure_bind]

theorem forall₂_append_iff {α β : Type} {R : α → β → Prop} {as as' : List α} {bs bs' : List β}
    (h : as.length = bs.length) :
    List.Forall₂ R (as ++ as') (bs ++ bs') ↔ List.Forall₂ R as bs ∧ List.Forall₂ R as' bs' := by
  constructor
  · intro hab
    have hleft := List.forall₂_take_append _ bs bs' hab
    have hright := List.forall₂_drop_append _ bs bs' hab
    rw [List.take_left' h] at hleft
    rw [List.drop_left' h] at hright
    exact ⟨hleft, hright⟩
  · rintro ⟨hleft, hright⟩
    exact List.rel_append hleft hright

namespace HostType

/-- Types whose values are all in their cells. -/
def plain : HostType → Bool
  | mem t => t.flat
  | intPtr | uintPtr | unit | duration | complex64 | complex128 => true
  | pair l r => l.plain && r.plain
  | _ => false

/-- The forms of the cells of a plain value, one for each slot. -/
def forms : HostType → List CellForm
  | mem (.scalar s) => [s.form]
  | mem .bool => [.below 2]
  | intPtr | uintPtr | duration => [.any]
  | complex64 => [Scalar.f32.form, Scalar.f32.form]
  | complex128 => [Scalar.f64.form, Scalar.f64.form]
  | pair l r => l.forms ++ r.forms
  | _ => []

/-- A property of plain types holds of all of them if it holds of those that are no pairs and passes
on from the two sides of a pair. -/
@[elab_as_elim]
theorem plain_induction {motive : (t : HostType) → t.plain = true → Prop}
    (scalar : ∀ s, motive (mem (.scalar s)) rfl) (bool : motive (mem .bool) rfl)
    (intPtr : motive intPtr rfl) (uintPtr : motive uintPtr rfl) (unit : motive unit rfl)
    (duration : motive duration rfl) (complex64 : motive complex64 rfl)
    (complex128 : motive complex128 rfl)
    (pair : ∀ l r hl hr, motive l hl → motive r hr → ∀ h, motive (pair l r) h) :
    ∀ t ht, motive t ht := by
  intro t ht
  induction t with
  | mem t =>
    cases t with
    | scalar s => exact scalar s
    | bool => exact bool
    | _ => contradiction
  | pair l r ihl ihr =>
    obtain ⟨hl, hr⟩ := (Bool.and_eq_true _ _).mp ht
    exact pair l r hl hr (ihl hl) (ihr hr) ht
  | intPtr => exact intPtr
  | uintPtr => exact uintPtr
  | unit => exact unit
  | duration => exact duration
  | complex64 => exact complex64
  | complex128 => exact complex128
  | _ => contradiction

/-- Lowering a plain value does nothing beside the stack. -/
theorem lower_plain (t : HostType) (ht : t.plain = true) (v : t.Val) :
    t.lower v = pure (t.cells v) := by
  induction t, ht using plain_induction with
  | pair l r hl hr ihl ihr =>
    simp only [lower, ihl, ihr, pure_bind]
    rfl
  | _ => rfl

/-- A pair is lifted from the cells of both sides, those of the right side on top. -/
theorem lift_pair {l r : HostType} {env : Resources} {left right rest : List Cell} {a : l.Val}
    {b : r.Val} (hright : ∀ rest, r.lift env (right.reverse ++ rest) = pure (b, rest))
    (hleft : l.lift env (left.reverse ++ rest) = pure (a, rest)) :
    (pair l r).lift env ((left ++ right).reverse ++ rest) = pure ((a, b), rest) := by
  rw [List.reverse_append, List.append_assoc]
  refine (Lifting.bind_of_eq_pure (hright _)).trans ?_
  exact Lifting.bind_of_eq_pure hleft

/-- A plain value is lifted from its cells, whatever is beside them. -/
theorem lift_cells (t : HostType) (ht : t.plain = true) (v : t.Val) (hv : t.Lossless v)
    (env : Resources) (rest : List Cell) :
    t.lift env ((t.cells v).reverse ++ rest) = pure (v, rest) := by
  induction t, ht using plain_induction generalizing rest with
  | scalar s =>
    change pure (s.ofCell (s.toCell v), rest) = _
    rw [s.ofCell_toCell]
  | bool => cases v <;> rfl
  | intPtr | uintPtr | unit => rfl
  | duration =>
    change pure (Duration.ofTicks v.ticks, rest) = _
    rw [Duration.ofTicks_ticks hv]
  | complex64 =>
    change pure (Complex.mk (Scalar.f32.ofCell (Scalar.f32.toCell v.re))
      (Scalar.f32.ofCell (Scalar.f32.toCell v.im)), rest) = _
    simp only [Scalar.ofCell_toCell]
  | complex128 =>
    change pure (Complex.mk (Scalar.f64.ofCell (Scalar.f64.toCell v.re))
      (Scalar.f64.ofCell (Scalar.f64.toCell v.im)), rest) = _
    simp only [Scalar.ofCell_toCell]
  | pair l r hl hr ihl ihr => exact lift_pair (ihr v.2 hv.2) (ihl v.1 hv.1 rest)

theorem length_cells (t : HostType) (ht : t.plain = true) (v : t.Val) :
    (t.cells v).length = t.slots.length := by
  induction t, ht using plain_induction with
  | pair l r hl hr ihl ihr => simp [cells, slots, ihl, ihr]
  | _ => rfl

theorem length_forms (t : HostType) (ht : t.plain = true) : t.forms.length = t.slots.length := by
  induction t, ht using plain_induction with
  | pair l r hl hr ihl ihr => simp [forms, slots, ihl, ihr]
  | _ => rfl

/-- Every cell can be lifted, to a value whose cells are the lifted ones just where these are
canonical. -/
theorem exists_lift_eq (t : HostType) (ht : t.plain = true) (cells : List Cell)
    (hn : cells.length = t.slots.length) :
    ∃ v, t.Lossless v ∧ (∀ env rest, t.lift env (cells.reverse ++ rest) = pure (v, rest)) ∧
      (t.cells v = cells ↔ List.Forall₂ CellForm.Canonical t.forms cells) := by
  induction t, ht using plain_induction generalizing cells with
  | scalar s =>
    obtain ⟨c, rfl⟩ := List.length_eq_one_iff.1 hn
    refine ⟨s.ofCell c, trivial, fun _ _ => rfl, ?_⟩
    simp [HostType.cells, MemType.cells, forms, Scalar.toCell_ofCell_iff]
  | bool =>
    obtain ⟨c, rfl⟩ := List.length_eq_one_iff.1 hn
    refine ⟨c != 0, trivial, fun _ _ => rfl, ?_⟩
    simp only [HostType.cells, MemType.cells, forms, List.cons.injEq, and_true,
      List.forall₂_cons, List.Forall₂.nil, CellForm.Canonical, ← UInt64.toNat_inj]
    have hzero : (c != 0) = true ↔ c.toNat ≠ 0 := by
      rw [bne_iff_ne, ne_eq, ← UInt64.toNat_inj]
      rfl
    rw [apply_ite UInt64.toNat, if_congr hzero rfl rfl, UInt64.toNat_one, UInt64.toNat_zero]
    constructor <;> split <;> omega
  | intPtr =>
    obtain ⟨c, rfl⟩ := List.length_eq_one_iff.1 hn
    exact ⟨c.toInt64, trivial, fun _ _ => rfl, by simp [HostType.cells, forms, CellForm.Canonical]⟩
  | uintPtr =>
    obtain ⟨c, rfl⟩ := List.length_eq_one_iff.1 hn
    exact ⟨c, trivial, fun _ _ => rfl, by simp [HostType.cells, forms, CellForm.Canonical]⟩
  | unit =>
    obtain rfl := List.length_eq_zero_iff.1 hn
    exact ⟨(), trivial, fun _ _ => rfl, by simp [HostType.cells, forms]⟩
  | duration =>
    obtain ⟨c, rfl⟩ := List.length_eq_one_iff.1 hn
    refine ⟨.ofTicks c, c.toNat_lt, fun _ _ => rfl, ?_⟩
    simp [HostType.cells, forms, CellForm.Canonical, Duration.ticks_ofTicks]
  | complex64 =>
    obtain ⟨im, re, rfl⟩ := List.length_eq_two.1 hn
    refine ⟨⟨Scalar.f32.ofCell re, Scalar.f32.ofCell im⟩, trivial, fun _ _ => rfl, ?_⟩
    simp [HostType.cells, forms, Scalar.toCell_ofCell_iff]
  | complex128 =>
    obtain ⟨im, re, rfl⟩ := List.length_eq_two.1 hn
    refine ⟨⟨Scalar.f64.ofCell re, Scalar.f64.ofCell im⟩, trivial, fun _ _ => rfl, ?_⟩
    simp [HostType.cells, forms, Scalar.toCell_ofCell_iff]
  | pair l r hl hr ihl ihr =>
    rw [slots, List.length_append] at hn
    obtain ⟨left, right, rfl, hleft, hright⟩ := Lifting.exists_append hn
    obtain ⟨a, ha, hlifta, hcellsa⟩ := ihl left hleft
    obtain ⟨b, hb, hliftb, hcellsb⟩ := ihr right hright
    refine ⟨(a, b), ⟨ha, hb⟩, fun env rest => lift_pair (hliftb env) (hlifta env rest), ?_⟩
    rw [forms, forall₂_append_iff ((l.length_forms hl).trans hleft.symm), ← hcellsa, ← hcellsb]
    constructor
    · intro h
      exact List.append_inj h ((l.length_cells hl a).trans hleft.symm)
    · rintro ⟨hcellsl, hcellsr⟩
      rw [HostType.cells, hcellsl, hcellsr]

end HostType

namespace Frame

variable {t : HostType} {fr : Frame}

/-- Lowering without a fault leaves what its steps leave and pushes their cells. -/
theorem lower_of_eq_pure {v : t.Val} {cells : List Cell} {env : Resources}
    (h : t.lower v fr.toResources = pure (cells, env)) :
    fr.lower t v = { fr with toResources := env }.pushAll cells := by
  rw [lower, giving, h]
  exact congrArg (fun fault => Frame.mk env (cells.reverse ++ fr.stack) fault) Option.or_none

theorem lower_mem_of_eq_pure {t : MemType} {v : t.Val} {cells : List Cell} {m : Memory}
    (h : t.lower v fr.memory = pure (cells, m)) :
    fr.lower (.mem t) v = { fr with memory := m }.pushAll cells := by
  have hsteps : (HostType.mem t).lower v fr.toResources =
      pure (cells, { fr.toResources with memory := m }) := by
    rw [HostType.lower, Lowering.onMemory, h]
    rfl
  exact lower_of_eq_pure hsteps

theorem lift_eq_of_steps {v : t.Val} {rest : List Cell} {f : Option Fault}
    (h : t.lift fr.toResources fr.stack = ⟨(v, rest), f⟩) :
    fr.lift t = (v, { fr with stack := rest, fault := fr.fault.or f }) := by
  rw [lift, taking, h]

theorem lift_of_eq_pure {v : t.Val} {rest : List Cell}
    (h : t.lift fr.toResources fr.stack = pure (v, rest)) :
    fr.lift t = (v, { fr with stack := rest }) := by
  rw [lift_eq_of_steps h, Option.or_none]

/-- Lifts a value and pushes it again. -/
def renew (fr : Frame) (t : HostType) : Frame := (fr.lift t).2.lower t (fr.lift t).1

end Frame

/-- A plain value is lifted as it was lowered, nothing else is changed. Of cells that are lifted and
lowered, those that come back as they were are the canonical ones; all others are renewed once and
then come back. -/
theorem lift_lower_plain (t : HostType) (ht : t.plain = true) (fr : Frame) :
    (∀ v, t.Lossless v → (fr.lower t v).lift t = (v, fr)) ∧
      ∀ cells : List Cell, cells.length = t.slots.length →
        ∃ renewed : List Cell, renewed.length = cells.length ∧
          (fr.pushAll cells).renew t = fr.pushAll renewed ∧
          (renewed = cells ↔ List.Forall₂ CellForm.Canonical t.forms cells) ∧
          (fr.pushAll renewed).renew t = fr.pushAll renewed := by
  have hlower (v : t.Val) : fr.lower t v = fr.pushAll (t.cells v) :=
    Frame.lower_of_eq_pure (congrFun (t.lower_plain ht v) _)
  have hback (v : t.Val) (hv : t.Lossless v) : (fr.pushAll (t.cells v)).lift t = (v, fr) :=
    Frame.lift_of_eq_pure (t.lift_cells ht v hv _ _)
  constructor
  · intro v hv
    rw [hlower, hback v hv]
  · intro cells hn
    obtain ⟨v, hv, hlift, hcells⟩ := t.exists_lift_eq ht cells hn
    have hcell : (fr.pushAll cells).lift t = (v, fr) := Frame.lift_of_eq_pure (hlift _ _)
    refine ⟨t.cells v, (t.length_cells ht v).trans hn.symm, ?_, hcells, ?_⟩
    · rw [Frame.renew, hcell, hlower]
    · rw [Frame.renew, hback v hv, hlower]

/-- The cell of -128 in 8 bits has the sign in all of its low half; without it, it is renewed. -/
theorem lift_lower_plain_nested :
    let t : HostType := .pair (.pair (.mem (.scalar .i8)) .duration) (.pair (.mem .bool) .complex64)
    let v : t.Val := (((-128 : Int8), ⟨5⟩), (true, ⟨⟨2⟩, ⟨3⟩⟩))
    let fr : Frame := .start ⟨⟨0, #[], 0⟩, none, true⟩ [7]
    t.plain = true ∧ t.Lossless v ∧ (fr.lower t v).lift t = (v, fr) ∧
      (fr.pushAll [0xffffff80, 5, 1, 3, 2]).renew t = fr.pushAll [0xffffff80, 5, 1, 3, 2] ∧
      (fr.pushAll [0x80, 5, 1, 3, 2]).renew t ≠ fr.pushAll [0x80, 5, 1, 3, 2] := by
  intro t v fr
  have hv : t.Lossless v := ⟨⟨trivial, (by decide : 5 < UInt64.size)⟩, trivial, trivial⟩
  refine ⟨rfl, hv, (lift_lower_plain t rfl fr).1 v hv, ?_, ?_⟩
  · obtain ⟨renewed, -, hrenew, hcells, -⟩ :=
      (lift_lower_plain t rfl fr).2 [0xffffff80, 5, 1, 3, 2] rfl
    rw [hrenew, hcells.2 (by decide)]
  · obtain ⟨renewed, -, hrenew, hcells, -⟩ := (lift_lower_plain t rfl fr).2 [0x80, 5, 1, 3, 2] rfl
    intro h
    -- below the cells the two stacks agree, so the cells would agree too
    have hstack : renewed.reverse ++ fr.stack = [0x80, 5, 1, 3, 2].reverse ++ fr.stack :=
      congrArg Frame.stack (hrenew.symm.trans h)
    have hsame := List.reverse_injective (List.append_cancel_right hstack)
    exact absurd (hcells.1 hsame) (by decide)

end HostCall
