import HostCall.Proofs.GuestCall

/-! How much of a cell counts. Lifting sees of a cell the part that belongs to its slot and nothing
above, with one exception: a truth value is true if any bit of its cell is set, also one above the
32 bits of the slot. So a native function that takes no truth value does the same on raw cells as on
those that reach it from a guest. Main statements: `HostType.sees_lift`, `lift_eq_of_seen`. -/

namespace HostCall

variable {ν α β : Type}

namespace Scalar

theorem ofBits_mod (s : Scalar) (n : Nat) :
    s.ofBits (n % LittleEndian.capacity s.width) = s.ofBits n := by
  rw [← toBits_ofBits, ofBits_toBits]

/-- A number is no wider than its slot. -/
theorem ofCell_narrow (s : Scalar) (c : Cell) : s.ofCell (s.slot.narrow c) = s.ofCell c := by
  have hmod : (s.slot.narrow c).toNat % LittleEndian.capacity s.width =
      c.toNat % LittleEndian.capacity s.width := by
    cases s <;>
      simp only [slot, SlotKind.narrow, width, LittleEndian.capacity, UInt32.toNat_toUInt64,
        UInt64.toNat_toUInt32]
    all_goals omega
  rw [ofCell, ← ofBits_mod, hmod, ofBits_mod, ofCell]

end Scalar

/-- A truth value as the cell that it is pushed as. -/
def truthCell (c : Cell) : Cell := if c = 0 then 0 else 1

namespace MemType

/-- What lifting sees of the cell in each slot. -/
def views : MemType → List (Cell → Cell)
  | bool => [truthCell]
  | t => t.slots.map SlotKind.narrow

theorem length_views (t : MemType) : t.views.length = t.slots.length := by
  cases t <;> rfl

end MemType

namespace HostType

/-- What lifting sees of the cell in each slot. -/
def views : HostType → List (Cell → Cell)
  | mem t => t.views
  | pair l r => l.views ++ r.views
  | t => t.slots.map SlotKind.narrow

theorem length_views (t : HostType) : t.views.length = t.slots.length := by
  induction t with
  | mem t => exact t.length_views
  | pair l r ihl ihr => rw [views, slots, List.length_append, List.length_append, ihl, ihr]
  | _ => rfl

/-- Whether a value of the type has a truth value among what it puts on the stack. -/
def pushesTruth : HostType → Bool
  | mem .bool => true
  | pair l r => l.pushesTruth || r.pushesTruth
  | _ => false

theorem views_eq_narrow {t : HostType} (h : t.pushesTruth = false) :
    t.views = t.slots.map SlotKind.narrow := by
  induction t with
  | mem t =>
    cases t with
    | bool => contradiction
    | _ => rfl
  | pair l r ihl ihr =>
    obtain ⟨hl, hr⟩ := (Bool.or_eq_false_iff).1 h
    rw [views, slots, List.map_append, ihl hl, ihr hr]
  | _ => rfl

end HostType

/-- What views give of the cells they are for. -/
def seen (views : List (Cell → Cell)) (cells : List Cell) : List Cell :=
  List.zipWith (fun view c => view c) views cells

namespace Lifting

/-- Steps that see of the top cells only what the views give, the view of the top cell first. -/
def Sees (views : List (Cell → Cell)) (steps : Lifting α) : Prop :=
  ∀ top below : List Cell, top.length = views.length →
    steps (seen views top ++ below) = steps (top ++ below)

theorem sees_pure (a : α) : Sees [] (pure a) := by
  intro top below h
  obtain rfl := List.length_eq_zero_iff.1 h
  rfl

theorem sees_outcome (o : Outcome α) : Sees [] (liftM o) := by
  intro top below h
  obtain rfl := List.length_eq_zero_iff.1 h
  rfl

theorem sees_pop {view : Cell → Cell} {f : Cell → α} (h : ∀ c, f (view c) = f c) :
    Sees [view] (pop >>= fun c => pure (f c)) := by
  intro top below hlength
  obtain ⟨c, rfl⟩ := List.length_eq_one_iff.1 hlength
  change (pure (f (view c), below) : Outcome _) = pure (f c, below)
  rw [h]

/-- Steps in sequence see what each of them sees, each of its own cells. -/
theorem Sees.bind {views views' : List (Cell → Cell)} {steps : Lifting α}
    {next : α → Lifting β} (hs : Sees views steps) (ht : Takes views.length steps)
    (hn : ∀ a, Sees views' (next a)) : Sees (views ++ views') (steps >>= next) := by
  intro top below h
  rw [List.length_append] at h
  obtain ⟨upper, lower, rfl, hu, hl⟩ := exists_append h
  have hsplit : seen (views ++ views') (upper ++ lower) = seen views upper ++ seen views' lower :=
    List.zipWith_append hu.symm
  have hrun (rest : List Cell) : (steps >>= next) (upper ++ rest) =
      ⟨(next (steps upper).value.1 rest).value,
        (steps upper).fault.or (next (steps upper).value.1 rest).fault⟩ := by
    change (steps (upper ++ rest) >>= fun r => next r.1 r.2) = _
    rw [ht upper rest hu]
    rfl
  calc
    (steps >>= next) (seen (views ++ views') (upper ++ lower) ++ below) =
        (steps >>= next) (upper ++ (seen views' lower ++ below)) := by
      rw [hsplit, List.append_assoc]
      change (steps _ >>= fun r => next r.1 r.2) = (steps _ >>= fun r => next r.1 r.2)
      rw [hs upper _ hu]
    _ = (steps >>= next) (upper ++ (lower ++ below)) := by
      rw [hrun, hrun, hn _ lower below hl]
    _ = (steps >>= next) (upper ++ lower ++ below) := by rw [List.append_assoc]

theorem Sees.map {views : List (Cell → Cell)} {steps : Lifting α} (hs : Sees views steps)
    (ht : Takes views.length steps) (f : α → β) : Sees views (steps >>= fun a => pure (f a)) := by
  have h := hs.bind ht fun a => sees_pure (f a)
  rwa [List.append_nil] at h

theorem sees_popWord : Sees [SlotKind.i32.narrow] popWord :=
  sees_pop fun c => UInt32.toUInt32_toUInt64 c.toUInt32

theorem sees_popRegion : Sees [SlotKind.i32.narrow, SlotKind.i32.narrow] popRegion :=
  sees_popWord.bind takes_popWord fun length => sees_popWord.map takes_popWord fun a => (a, length)

end Lifting

open Lifting

theorem truthCell_ne_zero (c : Cell) : (truthCell c != 0) = (c != 0) := by
  unfold truthCell
  split
  · next h => rw [h]
  · next h => exact (bne_iff_ne.2 h).symm

theorem MemType.sees_lift (m : Memory) (t : MemType) : Sees t.views.reverse (t.lift m) := by
  have region {α : Type} {next : Addr × UInt32 → Lifting α} (h : ∀ r, Sees [] (next r)) :
      Sees [SlotKind.i32.narrow, SlotKind.i32.narrow] (popRegion >>= next) :=
    sees_popRegion.bind takes_popRegion h
  cases t with
  | scalar s => exact sees_pop s.ofCell_narrow
  | bool => exact sees_pop truthCell_ne_zero
  | string =>
    refine region fun (a, length) => ?_
    exact (sees_outcome (m.load a length)).bind (takes_outcome _) fun bs => sees_outcome _
  | blob => exact region fun (a, length) => sees_outcome (m.load a length)
  | text =>
    refine region fun (a, length) => ?_
    exact (sees_outcome (m.load a length)).bind (takes_outcome _) fun bs =>
      (sees_outcome (readText a bs)).map (takes_outcome _) _
  | bytes =>
    exact region fun (a, length) => (sees_outcome (m.load a length)).map (takes_outcome _) _
  | list t =>
    refine region fun (a, count) => ?_
    exact (sees_outcome (m.loadElements t.size (t.read m) a count)).map (takes_outcome _) _
  | result t e => exact sees_popWord.bind takes_popWord fun a => sees_outcome _

theorem HostType.takes_views (env : Resources) (t : HostType) :
    Takes t.views.reverse.length (t.lift env) := by
  rw [List.length_reverse, t.length_views]
  exact t.takes_lift env

/-- Lifting sees of a cell what belongs to its slot, of a truth value whether the cell is 0. -/
theorem HostType.sees_lift (env : Resources) (t : HostType) :
    Sees t.views.reverse (t.lift env) := by
  induction t with
  | mem t => exact t.sees_lift env.memory
  | intPtr | duration | time => exact sees_pop fun _ => rfl
  | uintPtr =>
    have h : Sees [SlotKind.i64.narrow] (pop >>= fun c => pure c) := sees_pop fun _ => rfl
    rwa [bind_pure] at h
  | unit | context | counter => exact sees_pure _
  | complex64 =>
    have hpart := sees_pop Scalar.f32.ofCell_narrow
    have h := hpart.bind (takes_pop.map _) fun re => hpart.map (takes_pop.map _) fun im =>
      (⟨re, im⟩ : Complex F32)
    simp only [bind_assoc, pure_bind] at h
    exact h
  | complex128 =>
    have hpart := sees_pop Scalar.f64.ofCell_narrow
    have h := hpart.bind (takes_pop.map _) fun re => hpart.map (takes_pop.map _) fun im =>
      (⟨re, im⟩ : Complex F64)
    simp only [bind_assoc, pure_bind] at h
    exact h
  | indirectList t =>
    refine sees_popWord.bind takes_popWord fun a => ?_
    refine (sees_outcome (env.memory.loadHeader a)).bind (takes_outcome _) fun (pointer, n) => ?_
    exact (sees_outcome (env.memory.loadElements t.size _ pointer n)).map (takes_outcome _) _
  | pair l r ihl ihr =>
    have hright := ihr.bind (r.takes_views env) fun right =>
      ihl.map (l.takes_views env) fun left => (left, right)
    rwa [← List.reverse_append] at hright
  | handle t =>
    refine sees_popWord.bind takes_popWord fun id => ?_
    exact (sees_outcome (env.resolve t id)).map (takes_outcome _) _

/-- What the arguments of a call see of their cells. -/
def argumentViews (ts : List HostType) : List (Cell → Cell) := (ts.map HostType.views).flatten

theorem length_argumentViews (ts : List HostType) :
    (argumentViews ts).length = (flattenSlots (ts.map HostType.slots)).length := by
  induction ts with
  | nil => rfl
  | cons t ts ih =>
    change (t.views ++ argumentViews ts).length = (t.slots ++ flattenSlots _).length
    rw [List.length_append, List.length_append, t.length_views, ih]

theorem sees_liftArgs (env : Resources) (ts : List HostType) :
    Sees (argumentViews ts).reverse (liftArgs env ts) := by
  induction ts with
  | nil => exact sees_pure ()
  | cons t ts ih =>
    have htakes := takes_liftArgs env ts
    rw [← length_argumentViews, ← List.length_reverse] at htakes
    have h := ih.bind htakes fun rest => (t.sees_lift env).map (t.takes_views env) fun first =>
      (first, rest)
    rwa [← List.reverse_append] at h

theorem Frame.taking_congr {steps : Lifting α} (fr : Frame) {cells cells' : List Cell}
    (h : steps cells = steps cells') :
    { fr with stack := cells }.taking steps = { fr with stack := cells' }.taking steps := by
  unfold Frame.taking
  rw [h]

namespace Binding

/-- A native function runs alike on cells of which its arguments see the same. -/
theorem run_entry_congr (config : Config) (guest : Guest) (shared : Shared)
    (params : List HostType) (result : HostType) (f : Args params → Reply ν result.Val)
    {cells cells' : List Cell} (hlength : cells.length = (argumentViews params).length)
    (hlength' : cells'.length = (argumentViews params).length)
    (h : seen (argumentViews params) cells = seen (argumentViews params) cells') :
    (HostFn.ofNative params result f).run (entry config guest shared cells) =
      (HostFn.ofNative params result f).run (entry config guest shared cells') := by
  let env := (entry config guest shared []).toResources
  have hlift (cells : List Cell) (hlength : cells.length = (argumentViews params).length) :
      liftArgs env params cells.reverse =
        liftArgs env params (seen (argumentViews params) cells).reverse := by
    have hseen := sees_liftArgs env params cells.reverse []
      (by rw [List.length_reverse, List.length_reverse, hlength])
    have hreverse : seen (argumentViews params).reverse cells.reverse =
        (seen (argumentViews params) cells).reverse :=
      (List.reverse_zipWith hlength.symm).symm
    rw [List.append_nil, List.append_nil, hreverse] at hseen
    exact hseen.symm
  have heq : liftArgs env params cells.reverse = liftArgs env params cells'.reverse := by
    rw [hlift cells hlength, hlift cells' hlength', h]
  have htaking : (entry config guest shared cells).taking (liftArgs env params) =
      (entry config guest shared cells').taking (liftArgs env params) :=
    Frame.taking_congr (entry config guest shared []) heq
  -- a call is a function of what its arguments are lifted to
  let finish (taken : Args params × Frame) : ν × Frame :=
    ((f taken.1).note,
      { taken.2 with cancelled := taken.2.cancelled || (f taken.1).cancels : Frame }.lower result
        (f taken.1).value)
  have hrun (cells : List Cell) :
      (HostFn.ofNative params result f).run (entry config guest shared cells) =
        finish ((entry config guest shared cells).taking (liftArgs env params)) :=
    HostFn.run_eq params result f _
  rw [hrun, hrun, htaking]

end Binding

theorem Frame.lift_congr (t : HostType) (fr : Frame) (below : List Cell) {cells cells' : List Cell}
    (hlength : cells.length = t.slots.length) (hlength' : cells'.length = t.slots.length)
    (h : seen t.views cells = seen t.views cells') :
    { fr with stack := cells.reverse ++ below }.lift t =
      { fr with stack := cells'.reverse ++ below }.lift t := by
  rw [← t.length_views] at hlength hlength'
  have hlift (cells : List Cell) (hlength : cells.length = t.views.length) :
      t.lift fr.toResources ((seen t.views cells).reverse ++ below) =
        t.lift fr.toResources (cells.reverse ++ below) := by
    rw [← t.sees_lift fr.toResources cells.reverse below
      (by rw [List.length_reverse, List.length_reverse, hlength])]
    congr 2
    exact List.reverse_zipWith hlength.symm
  refine Frame.taking_congr fr ?_
  rw [← hlift cells hlength, ← hlift cells' hlength', h]

theorem seen_argumentViews {ts : List HostType} (h : ∀ t ∈ ts, t.pushesTruth = false)
    (cells : List Cell) :
    seen (argumentViews ts) cells =
      List.zipWith SlotKind.narrow (flattenSlots (ts.map HostType.slots)) cells := by
  have hviews : argumentViews ts =
      (flattenSlots (ts.map HostType.slots)).map SlotKind.narrow := by
    rw [argumentViews, flattenSlots, List.map_flatten, List.map_map]
    exact congrArg List.flatten
      (List.map_congr_left fun t ht => HostType.views_eq_narrow (h t ht))
  rw [seen, hviews, List.zipWith_map_left]

theorem narrow_narrow_cells (kinds : List SlotKind) (cells : List Cell) :
    List.zipWith SlotKind.narrow kinds (List.zipWith SlotKind.narrow kinds cells) =
      List.zipWith SlotKind.narrow kinds cells := by
  induction kinds generalizing cells with
  | nil => rfl
  | cons k kinds ih =>
    cases cells with
    | nil => rfl
    | cons c cells =>
      simp only [List.zipWith_cons_cons, SlotKind.narrow_narrow, ih]

namespace Binding

/-- Run on `cells`, the function does what it does in a call from a guest with the values that the
cells stand for. -/
def AgreesWithGuest (fn : HostFn ν) (cells : List Cell) : Prop :=
  ∀ (config : Config) (guest : Guest) (shared : Shared) (module name : String), ∃ called,
    invoke config guest shared (imported module name fn)
      (List.zipWith GuestValue.ofCell fn.paramSlots cells) = .ok called ∧
    called.note = (fn.run (entry config guest shared cells)).1 ∧
    Reports config guest (label module name) fn (fn.run (entry config guest shared cells)).2 called

theorem agreesWithGuest_of_seen (params : List HostType) (result : HostType)
    (f : Args params → Reply ν result.Val) {cells : List Cell}
    (hlength : cells.length = (HostFn.ofNative params result f).numParams)
    (h : seen (argumentViews params)
        (List.zipWith SlotKind.narrow (HostFn.ofNative params result f).paramSlots cells) =
      seen (argumentViews params) cells) :
    AgreesWithGuest (HostFn.ofNative params result f) cells := by
  intro config guest shared module name
  let fn := HostFn.ofNative params result f
  have hviews : (argumentViews params).length = fn.numParams := length_argumentViews params
  have hnarrow : (List.zipWith SlotKind.narrow fn.paramSlots cells).length = fn.numParams := by
    rw [List.length_zipWith, hlength]
    exact Nat.min_self _
  have hrun := run_entry_congr config guest shared params result f
    (hnarrow.trans hviews.symm) (hlength.trans hviews.symm) h
  refine ⟨_, invoke_ofCell config guest shared _ cells, congrArg Prod.fst hrun, ?_⟩
  change Reports config guest _ fn (fn.run _).2 _
  rw [← hrun]
  exact reports_respond config guest shared module name result.ne_externRef_of_mem_slots _

end Binding

/-- Of cells only what belongs to their slots counts where no truth value is lifted: from two stacks
that differ above the width of their slots the same value is lifted, with the same fault, and a
native function called on raw cells does what it does when a guest calls it with the values that the
cells stand for. With truth values it is so for cells of which these see the same, 0 or not. -/
theorem lift_eq_of_seen (t : HostType) (params : List HostType) (result : HostType)
    (f : Args params → Reply ν result.Val) :
    (∀ (fr : Frame) (below cells cells' : List Cell), t.pushesTruth = false →
      cells.length = t.slots.length → cells'.length = t.slots.length →
      List.zipWith SlotKind.narrow t.slots cells = List.zipWith SlotKind.narrow t.slots cells' →
      { fr with stack := cells.reverse ++ below }.lift t =
        { fr with stack := cells'.reverse ++ below }.lift t) ∧
    (∀ (fr : Frame) (below cells cells' : List Cell),
      cells.length = t.slots.length → cells'.length = t.slots.length →
      seen t.views cells = seen t.views cells' →
      { fr with stack := cells.reverse ++ below }.lift t =
        { fr with stack := cells'.reverse ++ below }.lift t) ∧
    ∀ cells : List Cell,
      let fn := HostFn.ofNative params result f
      cells.length = fn.numParams →
      ((∀ t ∈ params, t.pushesTruth = false) ∨
        seen (argumentViews params) (List.zipWith SlotKind.narrow fn.paramSlots cells) =
          seen (argumentViews params) cells) →
      Binding.AgreesWithGuest fn cells := by
  refine ⟨?_, fun fr below cells cells' => Frame.lift_congr t fr below, ?_⟩
  · intro fr below cells cells' htruth hlength hlength' h
    have hseen (cells : List Cell) :
        seen t.views cells = List.zipWith SlotKind.narrow t.slots cells := by
      rw [seen, HostType.views_eq_narrow htruth, List.zipWith_map_left]
    rw [← hseen, ← hseen] at h
    exact Frame.lift_congr t fr below hlength hlength' h
  · rintro cells fn hlength (htruth | hseen)
    · refine Binding.agreesWithGuest_of_seen params result f hlength ?_
      rw [seen_argumentViews htruth, seen_argumentViews htruth]
      exact narrow_narrow_cells _ cells
    · exact Binding.agreesWithGuest_of_seen params result f hlength hseen

/-- Cells with something above their slots: of a number and a text nothing of it is seen, nor of a
truth value that is set in its slot as well. -/
theorem lift_eq_of_seen_high_halves :
    let fr : Frame := .start ⟨.ofBytes #[104, 105], none, false⟩ []
    let t : HostType := .pair (.mem (.scalar .i8)) (.mem .text)
    let u32 : HostType := .mem (.scalar .u32)
    let fn : HostFn Unit := .ofPure [.mem .bool, u32] u32 fun (b, n, ()) => bif b then n else 0
    ({ fr with stack := [0x700000002, 0x500000000, 0x9000000ff] }.lift t).1 = (-1, ⟨0, "hi"⟩) ∧
      { fr with stack := [0x300000004] }.lift (.mem .bool) =
        { fr with stack := [1] }.lift (.mem .bool) ∧
      Binding.AgreesWithGuest fn [0x300000004, 0x200000007] ∧
      Binding.AgreesWithGuest (.ofPure [t] .unit fun _ => () : HostFn Unit)
        [0x9000000ff, 0x500000000, 0x700000002] := by
  intro fr t u32 fn
  obtain ⟨hnumbers, -, hpair⟩ := lift_eq_of_seen t [t] .unit
    fun _ => (⟨(), (), false⟩ : Reply Unit Unit)
  obtain ⟨-, htruth, hboth⟩ := lift_eq_of_seen (.mem .bool) [.mem .bool, u32] u32
    fun (b, n, ()) => (⟨(), bif b then n else 0, false⟩ : Reply Unit UInt32)
  refine ⟨?_, ?_, ?_, ?_⟩
  · have h := hnumbers fr [] [0x9000000ff, 0x500000000, 0x700000002] [0xff, 0, 2]
      (by decide) (by decide) (by decide) (by decide)
    exact (congrArg Prod.fst h).trans (by decide)
  · exact htruth fr [] [0x300000004] [1] (by decide) (by decide) (by decide)
  · exact hboth [0x300000004, 0x200000007] rfl (.inr (by decide))
  · exact hpair [0x9000000ff, 0x500000000, 0x700000002] rfl (.inl (by decide))

/-- A truth value sees what lies above its slot. Two cells that are 0 in the slot are lifted to true
and to false, and negation called on the first gives false, called by a guest true. -/
theorem truth_above_slot :
    let fr : Frame := .start ⟨.absent, none, false⟩ []
    let fn : HostFn Unit := .ofPure [.mem .bool] (.mem .bool) fun (b, ()) => !b
    let guest : Binding.Guest := ⟨.absent, none⟩
    let i := Binding.imported "env" "not" fn
    SlotKind.i32.narrow 0x100000000 = SlotKind.i32.narrow 0 ∧
      ({ fr with stack := [0x100000000] }.lift (.mem .bool)).1 = true ∧
      ({ fr with stack := [0] }.lift (.mem .bool)).1 = false ∧
      (fn.run (Binding.entry {} guest ⟨.empty, false⟩ [0x100000000])).2.cells = [0] ∧
      (Binding.invoke {} guest ⟨.empty, false⟩ i [.ofCell .i32 0x100000000]).map (·.outcome) =
        .ok (.ok [.i32 1]) :=
  ⟨by decide, by decide, by decide, by decide, rfl⟩

end HostCall
