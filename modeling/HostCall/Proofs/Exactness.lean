import HostCall.Proofs.Reference

/-! Lifting is exact: it meets no fault just where the reference decoder is defined, and then both
give the same value. A computation without a fault is followed into `Option`, where it is seen to
make the same accesses as the decoder: every address that saturates comes after an access to the
unsaturated one has failed. -/

namespace HostCall

variable {α β : Type}

namespace Outcome

/-- The value of a computation that met no fault. -/
def clean? (o : Outcome α) : Option α :=
  match o.fault with
  | none => some o.value
  | some _ => none

@[simp] theorem clean?_pure (a : α) : (pure a : Outcome α).clean? = some a := rfl

@[simp] theorem clean?_bind (x : Outcome α) (f : α → Outcome β) :
    (x >>= f).clean? = x.clean?.bind fun a => (f a).clean? := by
  obtain ⟨a, fault⟩ := x
  cases fault <;> rfl

theorem clean?_eq_some_iff {o : Outcome α} {a : α} :
    o.clean? = some a ↔ o.fault = none ∧ o.value = a := by
  obtain ⟨v, fault⟩ := o
  cases fault <;> simp [clean?]

theorem eq_pure_of_clean? {o : Outcome α} {a : α} (h : o.clean? = some a) : o = pure a := by
  obtain ⟨hfault, hvalue⟩ := clean?_eq_some_iff.1 h
  exact Outcome.ext hvalue hfault

theorem isSome_clean? (o : Outcome α) : o.clean?.isSome ↔ o.fault = none := by
  obtain ⟨v, fault⟩ := o
  cases fault <;> simp [clean?]

theorem all_cons (o : Outcome α) (os : List (Outcome α)) :
    all (o :: os) = o >>= fun a => all os >>= fun as => pure (a :: as) := by
  apply Outcome.ext
  · rfl
  · obtain ⟨v, fault⟩ := o
    cases fault with
    | none => exact Option.or_none.symm
    | some f => rfl

/-- A run of computations meets no fault where none of them does. -/
theorem clean?_all_map {ι : Type} (f : ι → Outcome α) (g : ι → Option α) (is : List ι)
    (h : ∀ i ∈ is, (f i).clean? = g i) : (all (is.map f)).clean? = is.mapM g := by
  induction is with
  | nil => rfl
  | cons i is ih =>
    have hi := h i List.mem_cons_self
    have his := ih fun j hj => h j (List.mem_cons_of_mem i hj)
    rw [List.map_cons, all_cons, clean?_bind, hi, List.mapM_cons]
    simp only [clean?_bind, his, clean?_pure]
    rfl

end Outcome

open Outcome

theorem clean?_readText (a : Addr) (bs : Bytes) : (readText a bs).clean? = text? bs := by
  unfold readText text?
  cases Utf8.decode? bs <;> rfl

namespace Memory

variable {m : Memory}

/-- Where an access to `n` bytes at `a` is in the memory, the address behind them is exact. -/
theorem Addressable.toNat_advance (hm : m.Addressable) {a : Addr} {n : Nat}
    (h : m.Covers a.toNat n) : (a.advance n).toNat = a.toNat + n :=
  Addr.toNat_advance_of_lt (Nat.lt_of_le_of_lt h.2 (hm.limit_lt a.toNat_lt_space h))

theorem clean?_load (m : Memory) (a : Addr) (n : UInt32) :
    (m.load a n).clean? = m.bytes? a.toNat n.toNat := by
  unfold load read bytes?
  by_cases h : m.Covers a.toNat n.toNat
  · rw [if_pos h, if_pos (show m.InBounds a n.toNat from h)]
    rfl
  · rw [if_neg h, if_neg (show ¬m.InBounds a n.toNat from h)]
    rfl

theorem clean?_loadWord (m : Memory) (a : Addr) : (m.loadWord a).clean? = m.word? a.toNat := by
  unfold loadWord word?
  rw [clean?_bind, clean?_load]
  rfl

theorem covers_of_word? {a : Nat} {w : UInt32} (h : m.word? a = some w) : m.Covers a 4 := by
  unfold word? bytes? at h
  by_cases hc : m.Covers a 4
  · exact hc
  · rw [if_neg hc] at h
    contradiction

theorem clean?_loadHeader (hm : m.Addressable) (a : Addr) :
    (m.loadHeader a).clean? = m.header? a.toNat := by
  unfold loadHeader header?
  rw [clean?_bind, clean?_loadWord]
  cases h : m.word? a.toNat with
  | none => rfl
  | some pointer =>
    have ha := hm.toNat_advance (covers_of_word? h)
    simp only [clean?_bind, clean?_loadWord, ha]
    rfl

/-- Elements whose region is in the memory and ends within the address space are read one by one. -/
theorem loadElements_of_covers {size : Nat} (element : Addr → Outcome α) {a : Addr}
    {count : UInt32} (h0 : count ≠ 0) (hc : m.Covers a.toNat (count.toNat * size))
    (hend : a.toNat + count.toNat * size ≤ Addr.space)
    (hlength : count.toNat * size < Addr.space) :
    m.loadElements size element a count =
      all ((List.range count.toNat).map fun i => element (a + UInt32.ofNat (i * size))) := by
  have hread : m.read a (UInt32.ofNat (count.toNat * size)) =
      .ok (m.slice a.toNat (count.toNat * size)) := by
    unfold read
    rw [Addr.toNat_ofNat_of_lt hlength]
    exact if_pos hc
  rw [loadElements, if_neg h0, if_pos ⟨hlength, hend⟩, hread]

theorem clean?_loadElements (hm : m.Addressable) {size : Nat} (element : Addr → Outcome α)
    (reference : Nat → Option α) (he : ∀ a : Addr, (element a).clean? = reference a.toNat)
    (a : Addr) (count : UInt32) :
    (m.loadElements size element a count).clean? =
      m.elements? size reference a.toNat count.toNat := by
  unfold elements?
  have hzero : count = 0 ↔ count.toNat = 0 := by rw [← UInt32.toNat_inj]; rfl
  by_cases h0 : count = 0
  · rw [loadElements, if_pos h0, if_pos (hzero.1 h0)]
    rfl
  rw [if_neg (mt hzero.2 h0)]
  by_cases hc : m.Covers a.toNat (count.toNat * size)
  · have hend : a.toNat + count.toNat * size < Addr.space :=
      Nat.lt_of_le_of_lt hc.2 (hm (Nat.lt_of_le_of_lt hc.1 a.toNat_lt_space))
    rw [if_pos hc, loadElements_of_covers element h0 hc (by omega) (by omega)]
    apply clean?_all_map
    intro i hi
    -- the elements before the end of the region have addresses that do not wrap round
    have hlt : i * size ≤ count.toNat * size :=
      Nat.mul_le_mul_right size (Nat.le_of_lt (List.mem_range.1 hi))
    unfold Addr.space at hend
    rw [he, UInt32.toNat_add, UInt32.toNat_ofNat']
    congr 1
    omega
  · rw [loadElements, if_neg h0, if_neg hc]
    split
    · next hfit =>
      unfold read
      rw [Addr.toNat_ofNat_of_lt hfit.1, if_neg (show ¬m.InBounds a _ from hc)]
      rfl
    · rfl

end Memory

theorem Scalar.toNat_width (s : Scalar) : (UInt32.ofNat s.width).toNat = s.width := by
  cases s <;> rfl

/-- Reading a memory form meets no fault just where the reference decoder is defined on it. -/
theorem MemType.clean?_read {m : Memory} (hm : m.Addressable) (t : MemType) (a : Addr) :
    (t.read m a).clean? = t.decodeAt m a.toNat := by
  have header := Memory.clean?_loadHeader hm
  induction t generalizing a with
  | scalar s =>
    have hl := Memory.clean?_load m a (UInt32.ofNat s.width)
    rw [s.toNat_width] at hl
    rw [read, clean?_bind, hl]
    rfl
  | bool =>
    rw [read, clean?_bind, Memory.clean?_load]
    rfl
  | string =>
    rw [read, clean?_bind, header]
    simp only [clean?_bind, Memory.clean?_load, clean?_readText]
    rfl
  | blob =>
    rw [read, clean?_bind, header]
    simp only [Memory.clean?_load]
    rfl
  | text =>
    rw [read, clean?_bind, header]
    simp only [clean?_bind, Memory.clean?_load, clean?_readText]
    rfl
  | bytes =>
    rw [read, clean?_bind, header]
    simp only [clean?_bind, Memory.clean?_load]
    rfl
  | list t ih =>
    rw [read, clean?_bind, header]
    simp only [clean?_bind, Memory.clean?_loadElements hm (t.read m) (t.decodeAt m) ih]
    rfl
  | result t e iht ihe =>
    rw [read, clean?_bind, Memory.clean?_loadWord, decodeAt]
    cases h : m.word? a.toNat with
    | none => rfl
    | some tag =>
      -- the tag was read, so the payload's address is exact
      have ha : (a.advance tagSize).toNat = a.toNat + tagSize :=
        hm.toNat_advance (Memory.covers_of_word? h)
      have haddr : UInt32.ofNat a.toNat = a := UInt32.ofNat_toNat
      change Outcome.clean? (if tag = 0 then _ else _) = if tag = 0 then _ else _
      by_cases h0 : tag = 0
      · rw [if_pos h0, if_pos h0, clean?_bind, iht, ha, haddr]
        rfl
      · rw [if_neg h0, if_neg h0, clean?_bind, ihe, ha, haddr]
        rfl

namespace Lifting

/-- Steps that meet no fault just where `reference` is defined, with the same value there. -/
def Exact (steps : Lifting α) (reference : Decoding α) : Prop :=
  ∀ cells : List Cell, (steps cells).clean? = reference cells

theorem exact_pure (a : α) : Exact (pure a) (pure a) := fun _ => rfl

theorem exact_pop : Exact pop Decoding.pop := by
  intro cells
  cases cells <;> rfl

theorem exact_outcome {o : Outcome α} {x : Option α} (h : o.clean? = x) :
    Exact (liftM o) (liftM x) := by
  intro cells
  change Outcome.clean? (o >>= fun a => pure (a, cells)) = x.bind fun a => some (a, cells)
  rw [clean?_bind, h]
  rfl

theorem Exact.bind {steps : Lifting α} {reference : Decoding α} {next : α → Lifting β}
    {following : α → Decoding β} (hs : Exact steps reference)
    (hn : ∀ a, Exact (next a) (following a)) :
    Exact (steps >>= next) (reference >>= following) := by
  intro cells
  change Outcome.clean? (steps cells >>= fun r => next r.1 r.2) = _
  rw [clean?_bind, hs cells]
  change _ = (reference cells).bind fun r => following r.1 r.2
  congr
  funext r
  exact hn r.1 r.2

theorem Exact.map {steps : Lifting α} {reference : Decoding α} (hs : Exact steps reference)
    (f : α → β) : Exact (steps >>= fun a => pure (f a)) (reference >>= fun a => pure (f a)) :=
  hs.bind fun a => exact_pure (f a)

theorem exact_popWord : Exact popWord Decoding.popWord := exact_pop.map _

theorem exact_popRegion : Exact popRegion Decoding.popRegion :=
  exact_popWord.bind fun length => exact_popWord.map fun a => (a, length)

end Lifting

open Lifting

theorem MemType.exact_lift {m : Memory} (hm : m.Addressable) (t : MemType) :
    Exact (t.lift m) (t.decode m) := by
  cases t with
  | scalar s => exact exact_pop.map _
  | bool => exact exact_pop.map _
  | string =>
    refine exact_popRegion.bind fun (a, length) => ?_
    exact (exact_outcome (m.clean?_load a length)).bind fun bs =>
      exact_outcome (clean?_readText a bs)
  | blob =>
    refine exact_popRegion.bind fun (a, length) => ?_
    exact exact_outcome (m.clean?_load a length)
  | text =>
    refine exact_popRegion.bind fun (a, length) => ?_
    exact (exact_outcome (m.clean?_load a length)).bind fun bs =>
      (exact_outcome (clean?_readText a bs)).map _
  | bytes =>
    refine exact_popRegion.bind fun (a, length) => ?_
    exact (exact_outcome (m.clean?_load a length)).map _
  | list t =>
    refine exact_popRegion.bind fun (a, count) => ?_
    exact (exact_outcome (Memory.clean?_loadElements hm _ _ (t.clean?_read hm) a count)).map _
  | result t e =>
    refine exact_popWord.bind fun a => ?_
    exact exact_outcome ((MemType.result t e).clean?_read hm a)

theorem Resources.clean?_resolve (env : Resources) (t : HostType) (h : UInt32) :
    (env.resolve t h).clean? = env.referent? t h := by
  unfold resolve referent?
  cases env.handles with
  | none => rfl
  | some table =>
    simp only [Option.bind_eq_bind, Option.bind_some]
    cases table.get? h with
    | none => rfl
    | some r =>
      simp only [Option.bind_some]
      cases r.as? t <;> rfl

theorem HostType.exact_lift {env : Resources} (hm : env.memory.Addressable) (t : HostType)
    (ht : t.liftable = true) : Exact (t.lift env) (t.decode env) := by
  induction t with
  | mem t => exact t.exact_lift hm
  | intPtr => exact exact_pop.map _
  | uintPtr => exact exact_pop
  | unit => exact exact_pure ()
  | duration => exact exact_pop.map _
  | time =>
    simp only [lift, Timestamp.ofTick_eq]
    exact exact_pop.map _
  | complex64 => exact exact_pop.bind fun re => exact_pop.map _
  | complex128 => exact exact_pop.bind fun re => exact_pop.map _
  | indirectList t =>
    refine exact_popWord.bind fun a => ?_
    refine (exact_outcome (Memory.clean?_loadHeader hm a)).bind fun (pointer, count) => ?_
    exact (exact_outcome (Memory.clean?_loadElements hm _ _ (t.clean?_read hm) pointer count)).map _
  | pair l r ihl ihr =>
    obtain ⟨hl, hr⟩ := (Bool.and_eq_true _ _).mp ht
    exact (ihr hr).bind fun right => (ihl hl).map fun left => (left, right)
  | handle t =>
    refine exact_popWord.bind fun id => ?_
    exact (exact_outcome (env.clean?_resolve t id)).map _
  | context => exact exact_pure _
  | counter => contradiction

/-- From a frame without a fault, lifting ends without one just where the reference decoder is
defined, and then with its value and what it leaves of the stack. -/
theorem lift_fault_eq_none_iff (t : HostType) (ht : t.liftable = true) (fr : Frame)
    (hf : fr.fault = none) (hm : fr.memory.Addressable) :
    ((fr.lift t).2.fault = none ↔ (t.decode fr.toResources fr.stack).isSome) ∧
      ∀ v rest, t.decode fr.toResources fr.stack = some (v, rest) →
        (fr.lift t).1 = v ∧ (fr.lift t).2.stack = rest := by
  have hexact := t.exact_lift hm ht fr.stack
  have hfault : (fr.lift t).2.fault = (t.lift fr.toResources fr.stack).fault := by
    change fr.fault.or _ = _
    rw [hf, Option.none_or]
  constructor
  · rw [hfault, ← isSome_clean?, hexact]
  · intro v rest h
    rw [← hexact, clean?_eq_some_iff] at h
    exact ⟨congrArg Prod.fst h.2, congrArg Prod.snd h.2⟩

/-- In sixteen bytes a list of bytes is found behind its header, and a value under a live handle. A
list whose elements take 8 bytes only modulo `2 ^ 32` is not. -/
theorem lift_fault_eq_none_iff_sixteen_bytes :
    let memory : Memory := .ofBytes #[8, 0, 0, 0, 3, 0, 0, 0, 7, 8, 9, 0, 0, 0, 0, 0]
    let env : Resources := ⟨memory, some ⟨1, [(1, ⟨.uintPtr, (4 : UInt64)⟩)]⟩, false⟩
    let found : HostType := .pair (.mem (.list .bytes)) (.handle .uintPtr)
    let wrapped : HostType := .mem (.list (.scalar .i64))
    ((Frame.start env [0, 1, 1]).lift found).2.fault = none ∧
      ((Frame.start env [0, 1, 1]).lift found).1 = (⟨0, [⟨8, [7, 8, 9]⟩]⟩, ⟨1, (4 : UInt64)⟩) ∧
      ((Frame.start env [8, 0x20000001]).lift wrapped).2.fault ≠ none := by
  -- stated on closed terms, where the decoder can be run
  have hdecode : (HostType.pair (.mem (.list .bytes)) (.handle .uintPtr)).decode
      ⟨.ofBytes #[8, 0, 0, 0, 3, 0, 0, 0, 7, 8, 9, 0, 0, 0, 0, 0],
        some ⟨1, [(1, ⟨.uintPtr, (4 : UInt64)⟩)]⟩, false⟩ [1, 1, 0] =
      some ((⟨0, [⟨8, [7, 8, 9]⟩]⟩, ⟨1, (4 : UInt64)⟩), []) := rfl
  intro memory env found wrapped
  have hmemory : memory.Addressable := Memory.addressable_ofBytes (by decide)
  have hfound := lift_fault_eq_none_iff found rfl (.start env [0, 1, 1]) rfl hmemory
  have hwrapped := lift_fault_eq_none_iff wrapped rfl (.start env [8, 0x20000001]) rfl hmemory
  have hnone : ¬(wrapped.decode env [0x20000001, 8]).isSome := by decide
  refine ⟨hfound.1.2 ?_, (hfound.2 _ [] hdecode).1, fun h => hnone (hwrapped.1.1 h)⟩
  exact Option.isSome_of_eq_some hdecode

end HostCall
