import HostCall.Proofs.CanonicalCells
import HostCall.Proofs.Intact
import HostCall.Proofs.ListLifting

/-! Lists of numbers that are lowered as they were lifted. A number is written with the bytes it was
read from, whatever they were, and the element whose index times the size led there is written at
the running address, which has not saturated. So lowering puts the bytes of the list where they were
lifted from, and that changes nothing. Main statements: `Memory.put_of_holds`, `Scalar.holds_read`,
`renew_list_of_scalars`. -/

namespace HostCall

namespace Memory

variable {m : Memory} {p : Piece} {ps : List Piece}

/-- Bytes that are in place can be put there again. -/
theorem Holds.splice_self (h : m.Holds p) : m.splice p.start p.bytes = m := by
  obtain ⟨⟨hbase, hlimit⟩, hbytes⟩ := holds_iff.1 h
  have hsame : overwrite m.bytes (p.start - m.base) p.bytes = m.bytes := by
    apply Array.ext_getElem?
    intro k
    rw [getElem?_overwrite]
    split
    · next hk =>
      have hbyte := hbytes (k - (p.start - m.base)) (by omega)
      rw [← hbyte, byte?, if_pos (by omega)]
      congr 1
      omega
    · rfl
  rw [Memory.splice, hsame]

/-- Pieces that are all in place can be put there again, also where they lie on each other. -/
theorem put_of_holds (h : ∀ p ∈ ps, m.Holds p) : m.put ps = m := by
  induction ps with
  | nil => rfl
  | cons p ps ih =>
    obtain ⟨hp, hrest⟩ := List.forall_mem_cons.1 h
    change (m.splice p.start p.bytes).put ps = m
    rw [hp.splice_self, ih hrest]

end Memory

/-- Pieces at addresses are put in memory where all of them are in it. -/
theorem Writing.near_eq_put {m : Memory} {ps : List Piece}
    (hc : ∀ p ∈ ps, m.Covers p.start p.bytes.length) (hs : ∀ p ∈ ps, p.start < Addr.space) :
    near ps m = pure ((), m.put ps) := by
  induction ps generalizing m with
  | nil => rfl
  | cons p ps ih =>
    obtain ⟨hp, hrest⟩ := List.forall_mem_cons.1 hc
    obtain ⟨hstart, hstarts⟩ := List.forall_mem_cons.1 hs
    have haddr : (Addr.nearest p.start).toNat = p.start := Addr.toNat_nearest_of_lt hstart
    have hbytes : Writing.bytes (Addr.nearest p.start) p.bytes m =
        pure ((), m.splice p.start p.bytes) := by
      rw [bytes_of_covers (by rwa [haddr]), haddr]
    change (Writing.bytes (Addr.nearest p.start) p.bytes m >>= fun r => near ps r.2) = _
    rw [hbytes, pure_bind]
    exact ih (fun q hq => (Memory.covers_splice ..).2 (hrest q hq)) hstarts

section Elements

variable {α : Type} {size : Nat} {outLength : α → Nat} {layout : α → Nat → Nat → List Piece}

/-- Each piece of a list is one of an element, at the address that the element's index gives. -/
theorem exists_of_mem_spread {xs : List α} {a data : Nat} {p : Piece}
    (hp : p ∈ spread size outLength layout xs a data) :
    ∃ i x data', xs[i]? = some x ∧ p ∈ layout x (a + i * size) data' := by
  induction xs generalizing a data with
  | nil => contradiction
  | cons x xs ih =>
    rcases List.mem_append.1 hp with hx | hrest
    · exact ⟨0, x, data, rfl, by rwa [Nat.zero_mul]⟩
    · obtain ⟨i, y, data', hy, hmem⟩ := ih hrest
      refine ⟨i + 1, y, data', hy, ?_⟩
      rwa [Nat.add_mul, Nat.one_mul, Nat.add_comm (i * size), ← Nat.add_assoc]

end Elements

/-- A list whose pieces are all in the memory is put there piece by piece. -/
theorem MemType.lower_list_eq_put {t : MemType} {v : (MemType.list t).Val}
    (hv : (MemType.list t).Short v) {m : Memory}
    (h : ∀ p ∈ packed t.size t.outLength t.imprint v.raw v.offset.toNat,
      m.Covers p.start p.bytes.length ∧ p.start < Addr.space) :
    (MemType.list t).lower v m = pure (regionCells v.offset v.raw.length,
      m.put (packed t.size t.outLength t.imprint v.raw v.offset.toNat)) := by
  obtain ⟨taken, -, helements⟩ := Writing.takes_elements t.size v.raw hv.1
    (fun x hx => t.takes_write x (hv.2 x hx)) v.offset.toNat
  rw [Addr.nearest_toNat] at helements
  change (Writing.elements t.size t.write v.raw v.offset m >>= fun r =>
    pure (regionCells v.offset v.raw.length, r.2)) = _
  rw [helements]
  change (Writing.near _ m >>= fun r => pure (taken, r.2)) >>= _ = _
  rw [Writing.near_eq_put (fun p hp => (h p hp).1) fun p hp => (h p hp).2]
  rfl

/-- The bytes of a number are those that it was read from. -/
theorem Scalar.holds_read (s : Scalar) {m : Memory} {a : Addr} (h : m.Covers a.toNat s.width) :
    m.Holds ⟨a.toNat,
      LittleEndian.toBytes s.width (s.toBits ((MemType.scalar s).read m a).value)⟩ := by
  have hslice := m.length_slice h.1 h.2
  have hload : m.load a (UInt32.ofNat s.width) = pure (m.slice a.toNat s.width) := by
    have hin : m.InBounds a (UInt32.ofNat s.width).toNat := by rwa [s.toNat_width]
    rw [Memory.load, Memory.read, if_pos hin, s.toNat_width]
    rfl
  have hlt := LittleEndian.ofBytes_lt (m.slice a.toNat s.width)
  have hbytes := LittleEndian.toBytes_ofBytes (m.slice a.toNat s.width)
  rw [hslice] at hlt hbytes
  have hread : ((MemType.scalar s).read m a).value =
      s.ofBits (LittleEndian.ofBytes (m.slice a.toNat s.width)) := by
    rw [MemType.read, hload]
    rfl
  rw [hread, s.toBits_ofBits, Nat.mod_eq_of_lt hlt, hbytes, Memory.Holds, hslice, Memory.bytes?,
    if_pos h]

namespace Memory

variable {m : Memory} {size : Nat} {a : Addr} {count : UInt32}

theorem hasElements_of_fault {α : Type} {element : Addr → Outcome α}
    (h : (m.loadElements size element a count).fault = none) : m.HasElements size a count := by
  by_contra hout
  rw [loadElements_of_not hout] at h
  contradiction

theorem value_loadElements {α : Type} (h : m.HasElements size a count)
    (element : Addr → Outcome α) :
    (m.loadElements size element a count).value =
      (List.range count.toNat).map fun i => (element (elementAddr size a i)).value := by
  rw [loadElements_of_hasElements h, Outcome.all, List.map_map]
  rfl

end Memory

namespace Scalar

variable (s : Scalar) {m : Memory} {a : Addr} {n : UInt32}

/-- The numbers that a list in `m` is made of. -/
def listed (m : Memory) (a : Addr) (n : UInt32) : List (MemType.scalar s).Val :=
  (List.range n.toNat).map fun i =>
    ((MemType.scalar s).read m (Memory.elementAddr s.width a i)).value

theorem length_listed (m : Memory) (a : Addr) (n : UInt32) : (s.listed m a n).length = n.toNat := by
  simp [listed]

/-- Their pieces are those that they were read from, each at the address that its index gives. -/
theorem holds_listed (h : m.HasElements s.width a n) :
    ∀ p ∈ packed s.width (MemType.scalar s).outLength (MemType.scalar s).imprint (s.listed m a n)
      a.toNat, m.Holds p ∧ p.start < Addr.space := by
  intro p hp
  obtain ⟨i, x, data, hx, hmem⟩ := exists_of_mem_spread hp
  obtain rfl := List.mem_singleton.1 hmem
  rw [listed, List.getElem?_map, Option.map_eq_some_iff] at hx
  obtain ⟨j, hj, rfl⟩ := hx
  obtain ⟨hi, rfl⟩ : i < n.toNat ∧ i = j := by simpa [List.getElem?_eq_some_iff] using hj
  have haddr := Memory.toNat_elementAddr h s.width_pos hi
  have hc : m.Covers (Memory.elementAddr s.width a i).toNat s.width := by
    rw [haddr]
    exact h.covers hi
  have hheld := s.holds_read hc
  rw [haddr] at hheld
  exact ⟨hheld, (h.element_lt s.width_pos hi).2⟩

/-- Lowering them where they were lifted from changes nothing. -/
theorem lower_listed (h : m.HasElements s.width a n) :
    (MemType.list (.scalar s)).lower ⟨a, s.listed m a n⟩ m = pure (regionCells a n.toNat, m) := by
  have hheld := s.holds_listed h
  have hshort : (MemType.list (.scalar s)).Short ⟨a, s.listed m a n⟩ :=
    ⟨by rw [s.length_listed]; exact n.toNat_lt, fun _ _ => trivial⟩
  have hput := MemType.lower_list_eq_put hshort (m := m) fun p hp =>
    ⟨(Memory.holds_iff.1 (hheld p hp).1).1, (hheld p hp).2⟩
  have hsame := Memory.put_of_holds fun p hp => (hheld p hp).1
  rw [hput, s.length_listed]
  exact congrArg (fun m => pure (regionCells a n.toNat, m)) hsame

end Scalar

namespace Frame

variable {s : Scalar} {fr : Frame} {offset count : Cell}

/-- A list of numbers that is lifted without a fault lies in memory and leaves the stack below it. -/
theorem lift_list_of_clean
    (h : (((fr.push offset).push count).lift (.mem (.list (.scalar s)))).2.fault = none) :
    fr.memory.HasElements s.width offset.toUInt32 count.toUInt32 ∧ fr.fault = none ∧
      ((fr.push offset).push count).lift (.mem (.list (.scalar s))) =
        (⟨offset.toUInt32, s.listed fr.memory offset.toUInt32 count.toUInt32⟩, fr) := by
  have hlift := (MemType.scalar s).lift_list_eq fr offset count
  rw [hlift] at h
  obtain ⟨hfault, ho⟩ := Option.or_eq_none_iff.1 h
  have hregion : fr.memory.HasElements s.width offset.toUInt32 count.toUInt32 :=
    Memory.hasElements_of_fault ho
  refine ⟨hregion, hfault, ?_⟩
  rw [hlift, ho, Option.or_none, show MemType.size _ = s.width from rfl,
    Memory.value_loadElements hregion]
  rfl

end Frame

/-- A list of numbers that is lifted without a fault and lowered again meets no fault, changes
nothing in memory and comes back to its two cells, of which only the low halves count. -/
theorem renew_list_of_scalars (s : Scalar) (fr : Frame) (offset count : Cell) :
    let pushed := (fr.push offset).push count
    let renewed := pushed.renew (.mem (.list (.scalar s)))
    (pushed.lift (.mem (.list (.scalar s)))).2.fault = none →
      renewed.fault = none ∧ renewed.toResources = fr.toResources ∧
        renewed.stack = SlotKind.i32.narrow count :: SlotKind.i32.narrow offset :: fr.stack := by
  intro pushed renewed hclean
  let a := offset.toUInt32
  let n := count.toUInt32
  obtain ⟨hregion, hfault, hlift⟩ := Frame.lift_list_of_clean hclean
  have hlower := s.lower_listed hregion
  have hrenewed : renewed = fr.pushAll (regionCells a n.toNat) := by
    change (pushed.lift (.mem (.list (.scalar s)))).2.lower _ (pushed.lift _).1 = _
    rw [hlift]
    exact Frame.lower_mem_of_eq_pure hlower
  have hcount : UInt64.ofNat n.toNat = SlotKind.i32.narrow count := UInt64.ofNat_uInt32ToNat n
  rw [hrenewed, ← hcount]
  exact ⟨hfault, rfl, rfl⟩

/-- Two NaNs, one of them signalling, at the last eight addresses. -/
theorem renew_list_of_scalars_nan :
    let nans : Array UInt8 := #[0x01, 0x00, 0x80, 0x7f, 0xff, 0xff, 0xff, 0xff]
    let fr : Frame := .start ⟨⟨0xfffffff8, nans, Addr.space⟩, none, false⟩ [3]
    let pushed := (fr.push 0x5fffffff8).push 0x700000002
    let renewed := pushed.renew (.mem (.list (.scalar .f32)))
    (pushed.lift (.mem (.list (.scalar .f32)))).2.fault = none ∧
      renewed.fault = none ∧ renewed.toResources = fr.toResources ∧
        renewed.stack = [2, 0xfffffff8, 3] := by
  intro nans fr pushed renewed
  have hclean : (pushed.lift (.mem (.list (.scalar .f32)))).2.fault = none := rfl
  exact ⟨hclean, renew_list_of_scalars .f32 fr 0x5fffffff8 0x700000002 hclean⟩

/-- A truth value is read from any byte but written as 0 or 1. -/
example :
    let fr : Frame := .start ⟨.ofBytes #[2], none, false⟩ []
    (((fr.push 0).push 1).renew (.mem (.list .bool))).memory.bytes = #[1] := rfl

end HostCall
