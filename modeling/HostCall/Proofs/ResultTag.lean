import HostCall.Proofs.Saturation
import HostCall.Proofs.Stack

/-! With which branch a lowered result is lifted. The tag and the payload are two writes, and the
address of the payload saturates: behind the last four addresses of the address space it is the last
address, so that the payload lies on the tag. No write needs to be out of bounds for that. What is
then found as the tag are the bytes that the payload leaves of it. Main statements:
`Memory.tag_zero_iff`, `lift_lower_result`. -/

namespace HostCall

open Outcome

theorem LittleEndian.ofBytes_eq_zero_iff (bs : Bytes) : ofBytes bs = 0 ↔ ∀ b ∈ bs, b = 0 := by
  induction bs with
  | nil => exact ⟨fun _ b hb => absurd hb List.not_mem_nil, fun _ => rfl⟩
  | cons b bs ih =>
    have hb : b.toNat = 0 ↔ b = 0 := by rw [← UInt8.toNat_inj]; rfl
    rw [ofBytes, List.forall_mem_cons, ← ih, ← hb]
    omega

namespace MemType

/-- Numbers and truth values: they point to nothing and take as many bytes whatever the value. -/
def flat : MemType → Bool
  | scalar _ | bool => true
  | _ => false

/-- The bytes of a number or a truth value. -/
def flatBytes : (t : MemType) → t.Val → Bytes
  | scalar s, v => LittleEndian.toBytes s.width (s.toBits v)
  | bool, v => [if v then 1 else 0]
  | _, _ => []

variable {t : MemType}

theorem length_flatBytes (ht : t.flat = true) (v : t.Val) : (t.flatBytes v).length = t.size := by
  cases t with
  | scalar s => exact LittleEndian.length_toBytes _ _
  | bool => rfl
  | _ => contradiction

theorem write_flat (ht : t.flat = true) (v : t.Val) (a data : Addr) :
    t.write v a data = do
      Writing.bytes a (t.flatBytes v)
      return 0 := by
  cases t with
  | scalar | bool => rfl
  | _ => contradiction

/-- A number or a truth value is read where its bytes are, also past the last address. -/
theorem clean?_read_flat (ht : t.flat = true) {m : Memory} {v : t.Val} {a : Addr}
    (held : m.Holds ⟨a.toNat, t.flatBytes v⟩) : (t.read m a).clean? = some v := by
  unfold Memory.Holds at held
  cases t with
  | scalar s =>
    have hload := m.clean?_load a (UInt32.ofNat s.width)
    dsimp only [flatBytes] at held
    rw [LittleEndian.length_toBytes] at held
    rw [s.toNat_width, held] at hload
    rw [read, clean?_bind, hload]
    change some (s.ofBits (LittleEndian.ofBytes _)) = _
    rw [LittleEndian.ofBytes_toBytes, Nat.mod_eq_of_lt (s.toBits_lt v), s.ofBits_toBits]
  | bool =>
    have hload : (m.load a 1).clean? = some [if v then 1 else 0] := (m.clean?_load a 1).trans held
    rw [read, clean?_bind, hload]
    cases v <;> rfl
  | _ => contradiction

end MemType

/-- How many bytes of a tag at `a` lie at the address of the payload or behind it: none unless that
address has saturated. -/
def tagOverlap (a : Addr) : Nat := a.toNat + tagSize - (a.advance tagSize).toNat

theorem toNat_payload (a : Addr) :
    (a.advance tagSize).toNat = a.toNat + (tagSize - tagOverlap a) ∧ tagOverlap a ≤ tagSize := by
  have := a.toNat_lt_space
  rw [tagOverlap, Addr.toNat_advance]
  unfold tagSize
  omega

theorem tagOverlap_eq_zero {a : Addr} (h : a.toNat + tagSize < Addr.space) : tagOverlap a = 0 := by
  rw [tagOverlap, Addr.toNat_advance_of_lt h, Nat.sub_self]

namespace Memory

variable {m : Memory} {a : Addr} {b : UInt8} {bs : Bytes}

/-- A word is 0 if its four bytes are. -/
theorem exists_word?_of_covers {a : Nat} (h : m.Covers a 4) :
    ∃ w, m.word? a = some w ∧ (w = 0 ↔ ∀ i < 4, m.byte? (a + i) = some 0) := by
  have hlength := m.length_slice h.1 h.2
  have hget (i : Nat) (hi : i < 4) := m.getElem?_slice h.1 h.2 hi
  have hlt := LittleEndian.ofBytes_lt (m.slice a 4)
  rw [hlength] at hlt
  have hzero : UInt32.ofNat (LittleEndian.ofBytes (m.slice a 4)) = 0 ↔
      LittleEndian.ofBytes (m.slice a 4) = 0 := by
    rw [← UInt32.toNat_inj, Addr.toNat_ofNat_of_lt hlt]
    rfl
  refine ⟨UInt32.ofNat (LittleEndian.ofBytes (m.slice a 4)), ?_, ?_⟩
  · rw [word?, bytes?, if_pos h]
    rfl
  rw [hzero, LittleEndian.ofBytes_eq_zero_iff, List.forall_mem_iff_forall_getElem]
  constructor
  · intro hall i hi
    rw [← hget i hi, List.getElem?_eq_getElem (by omega), hall i (by omega)]
  · intro hall i hi
    have h := hall i (by omega)
    rw [← hget i (by omega), List.getElem?_eq_getElem hi] at h
    exact Option.some_inj.1 h

/-- What is found at `a` once a tag was written there and a payload behind it. Of the tag the bytes
that the payload lies on are gone. -/
theorem byte?_tag (ha : m.Covers a.toNat tagSize)
    (hp : m.Covers (a.advance tagSize).toNat bs.length) {i : Nat} (hi : i < tagSize) :
    ((m.splice a.toNat [b, 0, 0, 0]).splice (a.advance tagSize).toNat bs).byte? (a.toNat + i) =
      if tagSize ≤ i + tagOverlap a ∧ i + tagOverlap a < tagSize + bs.length
      then bs[i + tagOverlap a - tagSize]? else [b, 0, 0, 0][i]? := by
  obtain ⟨haddr, hle⟩ := toNat_payload a
  have htag : a.toNat + [b, 0, 0, 0].length ≤ m.limit := ha.2
  have hp' := (covers_splice m a.toNat [b, 0, 0, 0] _ _).2 hp
  rw [byte?_splice _ hp'.1 hp'.2, byte?_splice m ha.1 htag, haddr]
  by_cases hon : tagSize ≤ i + tagOverlap a ∧ i + tagOverlap a < tagSize + bs.length
  · rw [if_pos hon, if_pos (by omega)]
    congr 1
    omega
  · rw [if_neg hon, if_neg (by omega), if_pos ⟨Nat.le_add_right _ _, Nat.add_lt_add_left hi _⟩,
      Nat.add_sub_cancel_left]

/-- The tag that is found is 0 if the payload has put only zeros on it and it was 0 before or all of
it is gone. -/
theorem tag_zero_iff (ha : m.Covers a.toNat tagSize)
    (hp : m.Covers (a.advance tagSize).toNat bs.length) (hbs : 0 < bs.length) :
    (∀ i < tagSize, ((m.splice a.toNat [b, 0, 0, 0]).splice (a.advance tagSize).toNat bs).byte?
        (a.toNat + i) = some 0) ↔
      (∀ x ∈ bs.take (tagOverlap a), x = 0) ∧ (b = 0 ∨ tagOverlap a = tagSize) := by
  obtain ⟨-, hle⟩ := toNat_payload a
  constructor
  · intro h
    constructor
    · intro x hx
      obtain ⟨j, hj, rfl⟩ := List.mem_take_iff_getElem.1 hx
      have hbyte := h (tagSize - tagOverlap a + j) (by omega)
      rw [byte?_tag ha hp (by omega), if_pos (by omega),
        show tagSize - tagOverlap a + j + tagOverlap a - tagSize = j by omega,
        List.getElem?_eq_getElem (by omega)] at hbyte
      exact Option.some_inj.1 hbyte
    · by_cases hall : tagOverlap a = tagSize
      · exact .inr hall
      · have hbyte := h 0 (by decide)
        rw [byte?_tag ha hp (by decide), if_neg (by omega)] at hbyte
        exact .inl (Option.some_inj.1 hbyte)
  · rintro ⟨hzeros, hfirst⟩ i hi
    rw [byte?_tag ha hp hi]
    split
    · next hon =>
      rw [List.getElem?_eq_getElem (by omega)]
      exact congrArg some (hzeros _ (List.mem_take_iff_getElem.2 ⟨_, by omega, rfl⟩))
    · next hoff =>
      match i with
      | 0 =>
        rcases hfirst with rfl | hall
        · rfl
        · omega
      | 1 | 2 | 3 => rfl

/-- After a tag and a payload were written there is a word in place of the tag and the payload in its
place, also where they overlap. -/
theorem exists_tag (ha : m.Covers a.toNat tagSize)
    (hp : m.Covers (a.advance tagSize).toNat bs.length) (hbs : 0 < bs.length) :
    let m' := (m.splice a.toNat [b, 0, 0, 0]).splice (a.advance tagSize).toNat bs
    m'.Holds ⟨(a.advance tagSize).toNat, bs⟩ ∧
      ∃ w, m'.word? a.toNat = some w ∧
        (w = 0 ↔
          (∀ x ∈ bs.take (tagOverlap a), x = 0) ∧ (b = 0 ∨ tagOverlap a = tagSize)) := by
  intro m'
  have ha' : m'.Covers a.toNat tagSize := (covers_splice ..).2 ((covers_splice ..).2 ha)
  obtain ⟨w, hw, hzero⟩ := exists_word?_of_covers ha'
  refine ⟨holds_splice ((covers_splice ..).2 hp), w, hw, hzero.trans (tag_zero_iff ha hp hbs)⟩

end Memory

namespace MemType

variable {t e : MemType} {m : Memory} {a : Addr}

/-- What is found of a tag and a payload that were written without a fault: the payload, and a tag
that is 0 if the payload has put only zeros on it and it was 0 before or all of it is gone. -/
theorem tag_of_fault {w : Writing UInt32} {tag : UInt32} {b : UInt8} {x : t.Val} {data : Addr}
    (h : (w m).fault = none) (ht : t.flat = true) (hb : Memory.wordBytes tag = [b, 0, 0, 0])
    (hw : w = do
      Writing.word a tag
      t.write x (a.advance tagSize) data) :
    m.Covers a.toNat tagSize ∧
      (w m).value.2.Holds ⟨(a.advance tagSize).toNat, t.flatBytes x⟩ ∧
      ∃ found, (w m).value.2.word? a.toNat = some found ∧
        (found = 0 ↔ (∀ y ∈ (t.flatBytes x).take (tagOverlap a), y = 0) ∧
          (b = 0 ∨ tagOverlap a = tagSize)) := by
  have hsteps : w m = Writing.bytes a [b, 0, 0, 0] m >>= fun r =>
      Writing.bytes (a.advance tagSize) (t.flatBytes x) r.2 >>= fun r => pure (0, r.2) := by
    rw [hw, write_flat ht, ← hb]
    rfl
  rw [hsteps] at h ⊢
  obtain ⟨htag, hrest⟩ := Option.or_eq_none_iff.1 h
  have ha : m.Covers a.toNat tagSize := Writing.covers_of_bytes htag
  have hplaced := Writing.bytes_of_covers (Writing.covers_of_bytes htag)
  rw [hplaced] at hrest ⊢
  have hpayload : (Writing.bytes (a.advance tagSize) (t.flatBytes x)
      (m.splice a.toNat [b, 0, 0, 0])).fault = none := (Option.or_eq_none_iff.1 hrest).1
  have hp := Writing.covers_of_bytes hpayload
  rw [pure_bind, Writing.bytes_of_covers hp]
  have hpos : 0 < (t.flatBytes x).length := by
    rw [length_flatBytes ht]
    exact t.size_pos
  exact ⟨ha, Memory.exists_tag ha ((Memory.covers_splice ..).1 hp) hpos⟩

/-- A result is read by what is found as its tag. -/
theorem read_result_of_word? {w : UInt32} (hw : m.word? a.toNat = some w) :
    (result t e).read m a =
      if w = 0 then t.read m (a.advance tagSize) >>= fun x => pure ⟨a, 0, .ok x⟩
      else e.read m (a.advance tagSize) >>= fun x => pure ⟨a, 0, .error x⟩ := by
  have hload : m.loadWord a = pure w := eq_pure_of_clean? ((m.clean?_loadWord a).trans hw)
  rw [read, hload, pure_bind]

theorem isError_read_result {w : UInt32} (hw : m.word? a.toNat = some w) :
    ((result t e).read m a).value.isError = (w != 0) := by
  rw [read_result_of_word? hw]
  split
  · next h => rw [h]; rfl
  · next h => exact (bne_iff_ne.2 h).symm

/-- What the payload leaves of the tag still tells the branch of a result at `a`: of a success it
puts only zeros there; of an error, where it lies on the whole tag, some other byte. -/
def TagKept (t e : MemType) (a : Addr) : Except e.Val t.Val → Prop
  | .ok x => ∀ b ∈ (t.flatBytes x).take (tagOverlap a), b = 0
  | .error x =>
    tagOverlap a = tagSize → ∃ b ∈ (e.flatBytes x).take (tagOverlap a), b ≠ 0

instance decidableTagKept (t e : MemType) (a : Addr) : (r : Except e.Val t.Val) →
    Decidable (TagKept t e a r)
  | .ok x => List.decidableBAll (· = 0) ((t.flatBytes x).take (tagOverlap a))
  | .error x =>
    have := List.decidableBEx (· ≠ 0) ((e.flatBytes x).take (tagOverlap a))
    inferInstanceAs (Decidable (_ → ∃ b ∈ (e.flatBytes x).take (tagOverlap a), b ≠ 0))

/-- The tag is kept where the payload lies behind it. -/
theorem tagKept_of_lt (h : a.toNat + tagSize < Addr.space) (r : Except e.Val t.Val) :
    TagKept t e a r := by
  have hnone := tagOverlap_eq_zero h
  cases r with
  | ok x =>
    intro b hb
    rw [hnone, List.take_zero] at hb
    contradiction
  | error x =>
    intro hall
    rw [hnone] at hall
    contradiction

/-- A result of numbers and truth values that is written without a fault is read with its branch
just where the tag is kept, and then with its payload and without a fault. -/
theorem read_written_result (ht : t.flat = true) (he : e.flat = true) (v : (result t e).Val)
    (data : Addr) (h : ((result t e).write v a data m).fault = none) :
    let m' := ((result t e).write v a data m).value.2
    m.Covers a.toNat tagSize ∧
      (TagKept t e a v.value → ((result t e).read m' a).clean? = some ⟨a, 0, v.value⟩) ∧
      (((result t e).read m' a).value.isError = v.isError ↔ TagKept t e a v.value) := by
  intro m'
  obtain ⟨-, hle⟩ := toNat_payload a
  obtain ⟨offset, dataPtr, x | x⟩ := v
  · obtain ⟨ha, held, found, hfound, hzero⟩ := tag_of_fault (x := x) (b := 1) h he rfl rfl
    have hkept : TagKept t e a (.error x) ↔ found ≠ 0 := by
      rw [Ne, hzero, TagKept]
      constructor
      · rintro hk ⟨hzeros, htag | hall⟩
        · contradiction
        · obtain ⟨b, hb, hne⟩ := hk hall
          exact hne (hzeros b hb)
      · intro hn hall
        refine Decidable.byContradiction fun hnone => hn ⟨fun b hb => ?_, .inr hall⟩
        exact Decidable.byContradiction fun hne => hnone ⟨b, hb, hne⟩
    refine ⟨ha, fun hk => ?_, ?_⟩
    · rw [read_result_of_word? hfound, if_neg (hkept.1 hk), clean?_bind, clean?_read_flat he held]
      rfl
    · rw [isError_read_result hfound, hkept]
      exact bne_iff_ne
  · obtain ⟨ha, held, found, hfound, hzero⟩ := tag_of_fault (x := x) (b := 0) h ht rfl rfl
    have hkept : TagKept t e a (.ok x) ↔ found = 0 := by
      rw [hzero]
      exact (and_iff_left (.inl rfl)).symm
    refine ⟨ha, fun hk => ?_, ?_⟩
    · rw [read_result_of_word? hfound, if_pos (hkept.1 hk), clean?_bind, clean?_read_flat ht held]
      rfl
    · rw [isError_read_result hfound, hkept]
      exact bne_eq_false_iff_eq

end MemType

/-- A result of numbers and truth values that is lowered without a fault is lifted with its branch
just where the tag is kept, and then with its payload and without a fault. The tag is kept wherever
the address space goes on behind it, and so in every memory that ends before the last address. -/
theorem lift_lower_result (t e : MemType) (ht : t.flat = true) (he : e.flat = true)
    (v : (MemType.result t e).Val) (fr : Frame) (hf : fr.fault = none)
    (h : (fr.lower (.mem (.result t e)) v).fault = none) :
    let lifted := (fr.lower (.mem (.result t e)) v).lift (.mem (.result t e))
    (fr.memory.limit < Addr.space ∨ v.offset.toNat + tagSize < Addr.space ∨
        MemType.TagKept t e v.offset v.value →
      lifted.2.fault = none ∧ lifted.2.stack = fr.stack ∧ lifted.1 = ⟨v.offset, 0, v.value⟩) ∧
    (lifted.1.isError = v.isError ↔ MemType.TagKept t e v.offset v.value) := by
  intro lifted
  let o := (MemType.result t e).write v v.offset v.dataPtr fr.memory
  let written : Frame := { fr with memory := o.value.2, fault := o.fault }
  have hlower : fr.lower (.mem (.result t e)) v =
      { written with stack := v.offset.toUInt64 :: written.stack } := by
    rw [fr.lower_result, fr.writeValue_eq, hf]
    rfl
  have hwrite : o.fault = none := by
    rw [hlower] at h
    exact h
  have hlifted : lifted =
      { written with fault := none }.readValue (.result t e) v.offset := by
    rw [← hwrite, ← written.lift_result t e, ← hlower]
  obtain ⟨hcovers, hkept, hbranch⟩ := MemType.read_written_result ht he v v.dataPtr hwrite
  rw [hlifted]
  refine ⟨fun hcase => ?_, hbranch⟩
  have htag : MemType.TagKept t e v.offset v.value := by
    rcases hcase with hlimit | hoffset | htag
    · exact MemType.tagKept_of_lt (Nat.lt_of_le_of_lt hcovers.2 hlimit) _
    · exact MemType.tagKept_of_lt hoffset _
    · exact htag
  obtain ⟨hfault, hvalue⟩ := clean?_eq_some_iff.1 (hkept htag)
  exact ⟨hfault, rfl, hvalue⟩

/-- At the last four addresses the low byte of a payload lies on the tag: of 256 that is a zero. -/
theorem lift_lower_result_last_addresses :
    let t : MemType := .scalar .u16
    let v : (MemType.result t .bool).Val := ⟨0xfffffffc, 0, .ok (256 : UInt16)⟩
    let fr : Frame := .start ⟨⟨0xfffffffc, Array.replicate 5 0xff, Addr.space + 1⟩, none, false⟩ [3]
    let lifted := (fr.lower (.mem (.result t .bool)) v).lift (.mem (.result t .bool))
    (fr.lower (.mem (.result t .bool)) v).fault = none ∧
      lifted.2.fault = none ∧ lifted.2.stack = [3] ∧ lifted.1 = ⟨0xfffffffc, 0, v.value⟩ := by
  have hclean : ((Frame.start ⟨⟨0xfffffffc, Array.replicate 5 0xff, Addr.space + 1⟩, none, false⟩
      [3]).lower (.mem (.result (.scalar .u16) .bool)) ⟨0xfffffffc, 0, .ok (256 : UInt16)⟩).fault =
        none := rfl
  intro t v fr lifted
  exact ⟨hclean, (lift_lower_result t .bool rfl rfl v fr rfl hclean).1 (.inr (.inr (by decide)))⟩

/-- In a memory of all addresses a success at the last four of them is lifted as an error, and no
fault tells; at the very last address so is an error as a success. -/
theorem result_branch_overwritten :
    let byte : MemType := .scalar .u8
    let last (n : Nat) : Frame :=
      .start ⟨⟨Addr.space - n, Array.replicate n 0, Addr.space⟩, none, false⟩ []
    let beyond : Frame := .start ⟨⟨0xffffffff, Array.replicate 4 0, Addr.space + 3⟩, none, false⟩ []
    let success : (MemType.result byte byte).Val := ⟨0xfffffffc, 0, .ok (5 : UInt8)⟩
    let error : (MemType.result byte byte).Val := ⟨0xffffffff, 0, .error (0 : UInt8)⟩
    let lowered := (last 4).lower (.mem (.result byte byte)) success
    let lowered' := beyond.lower (.mem (.result byte byte)) error
    lowered.fault = none ∧ (lowered.lift (.mem (.result byte byte))).2.fault = none ∧
      (lowered.lift (.mem (.result byte byte))).1 = ⟨0xfffffffc, 0, .error (5 : UInt8)⟩ ∧
      lowered'.fault = none ∧ (lowered'.lift (.mem (.result byte byte))).2.fault = none ∧
      (lowered'.lift (.mem (.result byte byte))).1 = ⟨0xffffffff, 0, .ok (0 : UInt8)⟩ :=
  ⟨rfl, rfl, rfl, rfl, rfl, rfl⟩

end HostCall
