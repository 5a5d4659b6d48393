import Mathlib.Data.List.Forall2
import HostCall.Proofs.GuestCall
import HostCall.Proofs.StickyFault

/-! Results that a guest passes on. Each cell that lowering pushes fits its slot, so the values that
a guest gets for the cells of a result stand for these very cells, and memory and table are as the
call has left them. A second function that is called with the values therefore starts where the
first one ended: it is given what lifting right after lowering gives. Main statements:
`HostType.fits_lower`, `forward_lifts_lowered`. -/

namespace HostCall

variable {ν : Type}

namespace SlotKind

/-- Nothing of the cell lies above the slot. -/
def Fits : SlotKind → Cell → Prop
  | i32, c | f32, c => c.toNat < Addr.space
  | i64, _ | f64, _ | externRef, _ => True

instance decidableFits : (k : SlotKind) → (c : Cell) → Decidable (k.Fits c)
  | i32, c | f32, c => inferInstanceAs (Decidable (c.toNat < Addr.space))
  | i64, _ | f64, _ | externRef, _ => inferInstanceAs (Decidable True)

theorem fits_word (w : UInt32) : i32.Fits w.toUInt64 := by
  change w.toUInt64.toNat < Addr.space
  rw [UInt32.toNat_toUInt64]
  exact w.toNat_lt

theorem fits_ofNat {n : Nat} (h : n < Addr.space) : i32.Fits (UInt64.ofNat n) := by
  change (UInt64.ofNat n).toNat < Addr.space
  rw [UInt64.toNat_ofNat']
  omega

theorem narrow_eq_self {k : SlotKind} {c : Cell} (h : k.Fits c) : k.narrow c = c := by
  have low (h : c.toNat < Addr.space) : c.toUInt32.toUInt64 = c := by
    apply UInt64.toNat.inj
    rw [UInt32.toNat_toUInt64, UInt64.toNat_toUInt32]
    exact Nat.mod_eq_of_lt h
  cases k with
  | i32 | f32 => exact low h
  | i64 | f64 | externRef => rfl

theorem narrow_cells_eq_self {kinds : List SlotKind} {cells : List Cell}
    (h : List.Forall₂ Fits kinds cells) : List.zipWith narrow kinds cells = cells := by
  induction h with
  | nil => rfl
  | cons hc _ ih => rw [List.zipWith_cons_cons, narrow_eq_self hc, ih]

end SlotKind

open SlotKind

/-- Numbers that are widened with their sign stay within 32 bits. -/
theorem Scalar.fits_toCell (s : Scalar) (v : s.Val) : s.slot.Fits (s.toCell v) := by
  cases s with
  | i8 => exact fits_word v.toInt32.toUInt32
  | i16 => exact fits_word v.toInt32.toUInt32
  | i32 => exact fits_ofNat v.toUInt32.toNat_lt
  | u8 => exact fits_ofNat (Nat.lt_trans v.toNat_lt (by decide))
  | u16 => exact fits_ofNat (Nat.lt_trans v.toNat_lt (by decide))
  | u32 => exact fits_ofNat v.toNat_lt
  | f32 => exact fits_ofNat v.bits.toNat_lt
  | i64 | u64 | f64 => trivial

namespace MemType

/-- The length that is pushed beside an address. -/
def pushedLength : (t : MemType) → t.Val → Nat
  | text, v => (Utf8.encode v.raw.toList).length
  | bytes, v => v.raw.length
  | list _, v => v.raw.length
  | scalar _, _ | bool, _ | string, _ | blob, _ | result _ _, _ => 0

theorem fits_regionCells (a : Addr) {n : Nat} (h : n < Addr.space) :
    List.Forall₂ Fits [.i32, .i32] (regionCells a n) :=
  .cons (fits_word a) (.cons (fits_ofNat h) .nil)

theorem fits_lower {t : MemType} (ht : t.lowerable = true) {v : t.Val}
    (hv : t.pushedLength v < Addr.space) (m : Memory) :
    List.Forall₂ Fits t.slots (t.lower v m).value.1 := by
  cases t with
  | scalar s => exact .cons (s.fits_toCell v) .nil
  | bool =>
    refine .cons ?_ .nil
    cases v with
    | false => exact (by decide : i32.Fits 0)
    | true => exact (by decide : i32.Fits 1)
  | string | blob => contradiction
  | text => exact fits_regionCells v.offset hv
  | bytes => exact fits_regionCells v.offset hv
  | list t => exact fits_regionCells v.offset hv
  | result t e => exact .cons (fits_word v.offset) .nil

end MemType

namespace HostType

/-- The lengths that are pushed for the value are 32-bit numbers. -/
def Short : (t : HostType) → t.Val → Prop
  | mem t, v => t.pushedLength v < Addr.space
  | pair l r, v => l.Short v.1 ∧ r.Short v.2
  | _, _ => True

/-- Each cell that lowering gives fits its slot, wherever its writes go. -/
theorem fits_lower {t : HostType} (ht : t.lowerable = true) {v : t.Val} (hv : t.Short v)
    (env : Resources) : List.Forall₂ Fits t.slots (t.lower v env).value.1 := by
  induction t generalizing env with
  | mem t => exact t.fits_lower ht hv env.memory
  | pair l r ihl ihr =>
    obtain ⟨hl, hr⟩ := (Bool.and_eq_true _ _).mp ht
    exact List.rel_append (ihl hl hv.1 env) (ihr hr hv.2 (l.lower v.1 env).value.2)
  | complex64 =>
    exact .cons (Scalar.f32.fits_toCell v.im) (.cons (Scalar.f32.fits_toCell v.re) .nil)
  | complex128 => exact .cons trivial (.cons trivial .nil)
  | intPtr | uintPtr | duration | time => exact .cons trivial .nil
  | unit => exact .nil
  | indirectList t => exact .cons (fits_word v.offset) .nil
  | handle t => exact .cons (fits_word _) .nil
  | context | counter => contradiction

end HostType

namespace Binding

/-- The frame of a call with the cells that an earlier one has left is the one in which that one
ended, but for its fault. -/
theorem entry_respond (config : Config) (guest : Guest) (shared : Shared) (module name : String)
    (params : List HostType) (result : HostType) (f : Args params → Reply ν result.Val)
    (cells : List Cell) :
    let fn := HostFn.ofNative params result f
    let s := (fn.run (entry config guest shared cells)).2
    let called := respond config guest shared (imported module name fn) cells
    entry config called.guest called.shared s.cells = s.clear := by
  intro fn s called
  obtain ⟨hmemory, hhandles⟩ :=
    HostFn.sameShape_run params result f (entry config guest shared cells)
  obtain ⟨handles, hs⟩ : ∃ handles, s.handles = some handles := Option.isSome_iff_exists.1 hhandles
  have htable : some called.shared.handles = s.handles := by
    change some (s.handles.getD shared.handles) = s.handles
    rw [hs, Option.getD_some]
  have hguest : (if called.guest.exports config then called.guest.memory else .absent) =
      s.memory := by
    by_cases hexports : guest.exports config
    · have hcalled : called.guest = { guest with memory := s.memory } := if_pos hexports
      rw [hcalled]
      exact if_pos hexports
    · have hcalled : called.guest = guest := if_neg hexports
      have habsent : (entry config guest shared cells).memory = .absent := if_neg hexports
      rw [habsent] at hmemory
      rw [hcalled, if_neg hexports, hmemory.eq_absent]
  have hstack : s.cells.reverse = s.stack := List.reverse_reverse s.stack
  unfold entry
  rw [hguest, htable, Frame.start, hstack]
  rfl

end Binding

open Binding

/-- Nothing is lost when values cross a guest. The cells that lowering pushes all fit their slots,
so narrowed to values of the guest and widened again they are the same cells. A guest that calls a
second function with the results of the first then makes it lift what is lifted from the frame in
which the first one lowered them, and do what it does when it is run there. -/
theorem forward_lifts_lowered :
    (∀ (t : HostType) (v : t.Val) (fr : Frame), t.lowerable = true → t.Short v →
      ∃ pushed, (fr.lower t v).cells = fr.cells ++ pushed ∧
        List.Forall₂ SlotKind.Fits t.slots pushed ∧
        (List.zipWith GuestValue.ofCell t.slots pushed).map GuestValue.kind? = t.slots.map some ∧
        (List.zipWith GuestValue.ofCell t.slots pushed).mapM GuestValue.cell? = some pushed) ∧
    ∀ (ν : Type) (config : Config) (guest : Guest) (shared : Shared)
      (module name module' name' : String) (params params' : List HostType) (t u : HostType)
      (f : Args params → Reply ν t.Val) (g : Args params' → Reply ν u.Val) (args : List GuestValue),
      let first := HostFn.ofNative params t f
      let second := HostFn.ofNative params' u g
      t.lowerable = true → second.paramSlots = t.slots →
      args.map GuestValue.kind? = first.paramSlots.map some →
      ∃ cells called, args.map GuestValue.cell? = cells.map some ∧
        invoke config guest shared (imported module name first) args = .ok called ∧
        let start := entry config guest shared cells
        let s := (first.run start).2
        (t.Short (f (start.taking (liftArgs start.toResources params)).1).value →
          ¬(config.trapOnError = true ∧ s.fault.isSome) →
          ∃ results forwarded, called.outcome = .ok results ∧
            invoke config called.guest called.shared (imported module' name' second) results =
              .ok forwarded ∧
            forwarded.note = (g (s.taking (liftArgs s.toResources params')).1).note ∧
            Reports config called.guest (label module' name') second (second.run s.clear).2
              forwarded) := by
  refine ⟨?_, ?_⟩
  · intro t v fr ht hv
    have hfits := t.fits_lower ht hv fr.toResources
    refine ⟨_, ?_, hfits, ?_, ?_⟩
    · rw [Frame.cells, Frame.stack_lower, List.reverse_append, List.reverse_reverse, Frame.cells]
    · exact (GuestValue.carry_ofCell t.ne_externRef_of_mem_slots hfits.length_eq).1
    · apply GuestValue.mapM_cell?
      rw [GuestValue.map_cell?_ofCell, narrow_cells_eq_self hfits]
  · intro ν config guest shared module name module' name' params params' t u f g args first second
      ht hslots hargs
    obtain ⟨cells, hlength, hcells⟩ := GuestValue.exists_cells hargs
    refine ⟨cells, _, hcells, by rw [invoke, GuestValue.mapM_cell? hcells], ?_⟩
    intro start s hshort hgoes
    have hfits : List.Forall₂ Fits t.slots s.cells := by
      obtain ⟨env, henv⟩ := cells_run_entry config guest shared params t f hlength
      rw [henv]
      exact t.fits_lower ht hshort env
    have hcount := length_stack_entry config guest shared params t f hlength ht
    have hentry := entry_respond config guest shared module name params t f cells
    let called := respond config guest shared (imported module name first) cells
    have houtcome : called.outcome = .ok (List.zipWith GuestValue.ofCell t.slots s.cells) :=
      (outcome_eq_ok_iff config (imported module name first) s _).2 ⟨hgoes, hcount, rfl⟩
    have hsecond := invoke_ofCell config called.guest called.shared
      (imported module' name' second) s.cells
    change invoke _ _ _ _ (List.zipWith GuestValue.ofCell second.paramSlots s.cells) =
      .ok (respond _ _ _ _ (List.zipWith SlotKind.narrow second.paramSlots s.cells)) at hsecond
    rw [hslots, narrow_cells_eq_self hfits] at hsecond
    refine ⟨_, _, houtcome, hsecond, ?_, ?_⟩
    · change (second.run (entry config called.guest called.shared s.cells)).1 = _
      rw [hentry]
      -- lifting never looks at the fault
      rfl
    · rw [← hentry]
      exact reports_respond config called.guest called.shared module' name'
        u.ne_externRef_of_mem_slots s.cells

/-- A negative byte and a value that is given a handle on the way out reach the second function as
they left the first. -/
theorem forward_lifts_lowered_handle :
    let byte : HostType := .mem (.scalar .i8)
    let kept : HostType := .handle .uintPtr
    let f : Args [byte] → Reply (Int8 × UInt64) (HostType.pair byte kept).Val :=
      fun (n, ()) => ⟨(0, 0), (n - 1, ⟨0, (5 : UInt64)⟩), false⟩
    let g : Args [byte, kept] → Reply (Int8 × UInt64) Unit :=
      fun (n, h, ()) => ⟨(n, h.raw), (), false⟩
    let first := imported "env" "open" (.ofNative [byte] (.pair byte kept) f)
    let second := imported "env" "use" (.ofNative [byte, kept] .unit g)
    let guest : Guest := ⟨.absent, none⟩
    let fr : Frame := .start ⟨.absent, none, false⟩ []
    (∃ pushed, (fr.lower byte (-2)).cells = fr.cells ++ pushed ∧
      List.Forall₂ SlotKind.Fits byte.slots pushed) ∧
    ∃ called results forwarded, invoke {} guest ⟨.empty, false⟩ first [.i32 0xff] = .ok called ∧
      called.outcome = .ok results ∧
      invoke {} called.guest called.shared second results = .ok forwarded ∧
      forwarded.note = (-2, 5) := by
  intro byte kept f g first second guest fr
  refine ⟨?_, ?_⟩
  · obtain ⟨pushed, hpushed, hfits, -⟩ :=
      forward_lifts_lowered.1 byte (-2) fr rfl (by decide : 0 < Addr.space)
    exact ⟨pushed, hpushed, hfits⟩
  · obtain ⟨cells, called, hcells, hcalled, hforward⟩ :=
      forward_lifts_lowered.2 (Int8 × UInt64) {} guest ⟨.empty, false⟩ "env" "open" "env" "use"
        [byte] [byte, kept] (.pair byte kept) .unit f g [.i32 0xff] rfl rfl rfl
    obtain rfl : cells = [0xff] := (List.map_inj_right fun _ _ => Option.some.inj).1 hcells.symm
    obtain ⟨results, forwarded, hresults, hsecond, hnote, -⟩ :=
      hforward ⟨(by decide : 0 < Addr.space), trivial⟩ (by decide)
    exact ⟨called, results, forwarded, hcalled, hresults, hsecond, hnote.trans (by decide)⟩

end HostCall
