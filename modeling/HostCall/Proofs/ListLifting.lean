import HostCall.Proofs.ResultTag

/-! Lists taken off the stack. All elements are read or none is. They are where their region,
counted in natural numbers, ends within the address space and lies in the memory as a whole; the
addresses of the elements are then exact and no arithmetic on words wraps round. Main statement:
`lift_list_whole_or_empty`. -/

namespace HostCall

namespace Memory

/-- `count` elements of `size` bytes from `a` on can be read: there are none, or their region ends
with the address space at the latest and is in the memory. -/
def HasElements (m : Memory) (size : Nat) (a : Addr) (count : UInt32) : Prop :=
  count = 0 ∨ count.toNat * size < Addr.space ∧ a.toNat + count.toNat * size ≤ Addr.space ∧
    m.Covers a.toNat (count.toNat * size)

instance (m : Memory) (size : Nat) (a : Addr) (count : UInt32) :
    Decidable (m.HasElements size a count) :=
  inferInstanceAs (Decidable (_ ∨ _ ∧ _ ∧ _))

/-- Where the element with index `i` is looked for. Sum and product are those of words. -/
def elementAddr (size : Nat) (a : Addr) (i : Nat) : Addr :=
  a + UInt32.ofNat i * UInt32.ofNat size

variable {α : Type} {m : Memory} {size : Nat} {a : Addr} {count : UInt32} {i : Nat}

theorem element_end_le (size : Nat) (hi : i < count.toNat) :
    i * size + size ≤ count.toNat * size := by
  rw [← Nat.succ_mul]
  exact Nat.mul_le_mul_right size hi

theorem HasElements.element_lt (h : m.HasElements size a count) (hsize : 0 < size)
    (hi : i < count.toNat) : i * size < Addr.space ∧ a.toNat + i * size < Addr.space := by
  have hend := element_end_le size hi
  rcases h with rfl | ⟨htotal, hregion, -⟩
  · exact absurd hi (Nat.not_lt_zero i)
  · omega

theorem toNat_elementAddr (h : m.HasElements size a count) (hsize : 0 < size)
    (hi : i < count.toNat) : (elementAddr size a i).toNat = a.toNat + i * size := by
  obtain ⟨hlt, hsum⟩ := h.element_lt hsize hi
  rw [elementAddr, ← UInt32.ofNat_mul, UInt32.toNat_add, Addr.toNat_ofNat_of_lt hlt]
  exact Nat.mod_eq_of_lt hsum

/-- Each element is in the memory where they all are. -/
theorem HasElements.covers (h : m.HasElements size a count) (hi : i < count.toNat) :
    m.Covers (a.toNat + i * size) size := by
  have hend := element_end_le size hi
  rcases h with rfl | ⟨-, -, hbase, hlimit⟩
  · exact absurd hi (Nat.not_lt_zero i)
  · exact ⟨by omega, by omega⟩

theorem loadElements_of_hasElements (h : m.HasElements size a count)
    (element : Addr → Outcome α) :
    m.loadElements size element a count =
      .all ((List.range count.toNat).map fun i => element (elementAddr size a i)) := by
  rcases h with rfl | ⟨htotal, hregion, hc⟩
  · rfl
  · by_cases h0 : count = 0
    · subst h0
      rfl
    · rw [loadElements_of_covers element h0 hc hregion htotal]
      simp only [elementAddr, UInt32.ofNat_mul]

theorem loadElements_of_not (h : ¬m.HasElements size a count) (element : Addr → Outcome α) :
    m.loadElements size element a count =
      .failing (.readOutOfBounds a (Addr.nearest (count.toNat * size)) m.size) [] := by
  obtain ⟨h0, hregion⟩ := not_or.1 h
  rw [loadElements, if_neg h0]
  split
  · next hfit =>
    have hout : ¬m.InBounds a (UInt32.ofNat (count.toNat * size)).toNat := by
      rw [Addr.toNat_ofNat_of_lt hfit.1]
      exact fun hc => hregion ⟨hfit.1, hfit.2, hc⟩
    have hnearest : Addr.nearest (count.toNat * size) = UInt32.ofNat (count.toNat * size) := by
      apply UInt32.toNat_inj.1
      rw [Addr.toNat_nearest_of_lt hfit.1, Addr.toNat_ofNat_of_lt hfit.1]
    rw [read, if_neg hout, hnearest]
  · rfl

end Memory

namespace MemType

/-- A number or a truth value is read without a fault where it is in the memory. -/
theorem fault_read_flat {t : MemType} (ht : t.flat = true) {m : Memory} {a : Addr}
    (h : m.Covers a.toNat t.size) : (t.read m a).fault = none := by
  rw [← Outcome.isSome_clean?]
  cases t with
  | scalar s =>
    have hs : m.Covers a.toNat (UInt32.ofNat s.width).toNat := by
      rw [s.toNat_width]
      exact h
    rw [read, Outcome.clean?_bind, m.clean?_load, Memory.bytes?, if_pos hs]
    rfl
  | bool =>
    have hs : m.Covers a.toNat (1 : UInt32).toNat := h
    rw [read, Outcome.clean?_bind, m.clean?_load, Memory.bytes?, if_pos hs]
    rfl
  | _ => contradiction

/-- Two cells are taken, an address and a number of elements, whatever is found there. -/
theorem lift_list_eq (t : MemType) (fr : Frame) (offset count : Cell) :
    let o := fr.memory.loadElements t.size (t.read fr.memory) offset.toUInt32 count.toUInt32
    ((fr.push offset).push count).lift (.mem (.list t)) =
      (⟨offset.toUInt32, o.value⟩, { fr with fault := fr.fault.or o.fault }) := by
  intro o
  have hsteps : (list t).lift fr.memory (count :: offset :: fr.stack) =
      ⟨(⟨offset.toUInt32, o.value⟩, fr.stack), o.fault⟩ := by
    apply Outcome.ext
    · rfl
    · change ((none : Option Fault).or none).or ((o.fault.or none).or none) = _
      simp only [Option.or_none, Option.none_or]
  change (let o := (list t).lift fr.memory (count :: offset :: fr.stack)
    (o.value.1, { fr with stack := o.value.2, fault := fr.fault.or o.fault })) = _
  rw [hsteps]

end MemType

/-- A list comes off the stack whole or empty. Where its region ends with the address space at the
latest and is in the memory, each element is the value at its exact address, which no arithmetic on
words misses, and no fault is met but those of the elements; numbers and truth values meet none. Of
any other list nothing is read, and the fault tells of the whole region. -/
theorem lift_list_whole_or_empty (t : MemType) (fr : Frame) (offset count : Cell) :
    let a := offset.toUInt32
    let n := count.toUInt32
    let total := n.toNat * t.size
    let lifted := ((fr.push offset).push count).lift (.mem (.list t))
    lifted.1.offset = a ∧ lifted.2.toResources = fr.toResources ∧ lifted.2.stack = fr.stack ∧
      (fr.memory.HasElements t.size a n →
        lifted.1.raw.length = n.toNat ∧
        (∀ i < n.toNat, i * t.size < Addr.space ∧ a.toNat + i * t.size < Addr.space ∧
          (Memory.elementAddr t.size a i).toNat = a.toNat + i * t.size ∧
          lifted.1.raw[i]? = some (fr.readValue t (Memory.elementAddr t.size a i)).1) ∧
        lifted.2.fault = fr.fault.or ((List.range n.toNat).findSome? fun i =>
          (t.read fr.memory (Memory.elementAddr t.size a i)).fault) ∧
        (t.flat = true → lifted.2.fault = fr.fault)) ∧
      (¬fr.memory.HasElements t.size a n →
        lifted.1.raw = [] ∧
        ∃ length : UInt32, length.toNat = (if total < Addr.space then total else Addr.space - 1) ∧
          lifted.2.fault = fr.fault.or (some (.readOutOfBounds a length fr.memory.size))) := by
  intro a n total lifted
  let o := fr.memory.loadElements t.size (t.read fr.memory) a n
  have hlifted : lifted = (⟨a, o.value⟩, { fr with fault := fr.fault.or o.fault }) :=
    t.lift_list_eq fr offset count
  rw [hlifted]
  refine ⟨rfl, rfl, rfl, fun h => ?_, fun h => ?_⟩
  · have ho : o = .all ((List.range n.toNat).map fun i =>
        t.read fr.memory (Memory.elementAddr t.size a i)) := Memory.loadElements_of_hasElements h _
    have hfault : o.fault = (List.range n.toNat).findSome? fun i =>
        (t.read fr.memory (Memory.elementAddr t.size a i)).fault := by
      rw [ho, Outcome.all, List.findSome?_map]
      rfl
    refine ⟨?_, fun i hi => ⟨?_, ?_, ?_, ?_⟩, ?_, fun ht => ?_⟩
    · simp [ho, Outcome.all]
    · exact (h.element_lt t.size_pos hi).1
    · exact (h.element_lt t.size_pos hi).2
    · exact Memory.toNat_elementAddr h t.size_pos hi
    · simp [ho, Outcome.all, hi, Frame.readValue, Frame.settle]
    · rw [hfault]
    · have hclean : o.fault = none := by
        rw [hfault, List.findSome?_eq_none_iff]
        intro i hi
        have hlt := List.mem_range.1 hi
        apply t.fault_read_flat ht
        rw [Memory.toNat_elementAddr h t.size_pos hlt]
        exact h.covers hlt
      rw [hclean, Option.or_none]
  · have ho : o = .failing (.readOutOfBounds a (Addr.nearest total) fr.memory.size) [] :=
      Memory.loadElements_of_not h _
    rw [ho]
    refine ⟨rfl, Addr.nearest total, ?_, rfl⟩
    rw [Addr.toNat_nearest]
    split <;> omega

/-- Two numbers that end with the address space, in a memory that goes on behind it. A third one has
no address. -/
theorem lift_list_at_last_address :
    let fr : Frame := .start ⟨⟨0xfffffffc, Array.replicate 8 1, Addr.space + 4⟩, none, false⟩ []
    let lifted (count : Cell) :=
      ((fr.push 0xfffffffc).push count).lift (.mem (.list (.scalar .u16)))
    fr.memory.HasElements 2 0xfffffffc 2 ∧ ¬fr.memory.HasElements 2 0xfffffffc 3 ∧
      (lifted 2).1.raw.length = 2 ∧ (lifted 2).2.fault = none ∧ (lifted 3).1.raw = [] ∧
      ∃ length : UInt32, length.toNat = 6 ∧
        (lifted 3).2.fault = some (.readOutOfBounds 0xfffffffc length (Addr.space + 4)) := by
  intro fr lifted
  have hfits : fr.memory.HasElements 2 0xfffffffc 2 := by decide
  have hpasses : ¬fr.memory.HasElements 2 0xfffffffc 3 := by decide
  obtain ⟨-, -, -, hwhole, -⟩ := lift_list_whole_or_empty (.scalar .u16) fr 0xfffffffc 2
  obtain ⟨-, -, -, -, hempty⟩ := lift_list_whole_or_empty (.scalar .u16) fr 0xfffffffc 3
  obtain ⟨hlength, -, -, hclean⟩ := hwhole hfits
  exact ⟨hfits, hpasses, hlength, hclean rfl, hempty hpasses⟩

end HostCall
