import HostCall.Proofs.ListRewriting

/-! Headers are written in one piece and read word by word. The second word is looked for four bytes
behind the first, or at the last address where that lies beyond it. So a header that was written is
read with its pointer always, and with its length wherever the length is at an address; at the last
four addresses the four bytes that are taken for the length begin in the pointer, and no fault
tells. What lies behind a header is read by what is found there. Main statements:
`Memory.loadHeader_of_holds`, `MemType.read_headed`, `MemType.headerLength_readRegion`,
`header_read_back`. -/

namespace HostCall

open Outcome

/-- How far behind the start of a header at `a` its length is looked for. -/
def lengthOffset (a : Addr) : Nat := (a.advance 4).toNat - a.toNat

theorem toNat_advance_four (a : Addr) :
    (a.advance 4).toNat = a.toNat + lengthOffset a ∧ lengthOffset a ≤ 4 := by
  have := a.toNat_lt_space
  rw [lengthOffset, Addr.toNat_advance]
  omega

theorem lengthOffset_of_lt {a : Addr} (h : a.toNat + 4 < Addr.space) : lengthOffset a = 4 := by
  rw [lengthOffset, Addr.toNat_advance_of_lt h, Nat.add_sub_cancel_left]

/-- What is taken for the length of a header that was written at `a`: four of its eight bytes, the
last four unless it lies at the last addresses. -/
def lengthFound (a pointer : Addr) (length : UInt32) : UInt32 :=
  UInt32.ofNat (LittleEndian.ofBytes
    (((Memory.wordBytes pointer ++ Memory.wordBytes length).drop (lengthOffset a)).take 4))

/-- A header at `a` for `n` bytes or elements is read with this length. -/
def LengthKept (a pointer : Addr) (n : Nat) : Prop :=
  (lengthFound a pointer (UInt32.ofNat n)).toNat = n

instance (a pointer : Addr) (n : Nat) : Decidable (LengthKept a pointer n) :=
  inferInstanceAs (Decidable (_ = _))

/-- A length that lies at an address is found. -/
theorem lengthFound_of_lt {a : Addr} (h : a.toNat + 4 < Addr.space) (pointer : Addr)
    (length : UInt32) : lengthFound a pointer length = length := by
  rw [lengthFound, lengthOffset_of_lt h, List.drop_left' (Memory.length_wordBytes pointer),
    List.take_of_length_le (Nat.le_of_eq (Memory.length_wordBytes length)),
    Memory.ofBytes_wordBytes]

theorem lengthKept_of_lt {a : Addr} (h : a.toNat + 4 < Addr.space) (pointer : Addr) {n : Nat}
    (hn : n < Addr.space) : LengthKept a pointer n := by
  rw [LengthKept, lengthFound_of_lt h, Addr.toNat_ofNat_of_lt hn]

theorem lengthKept_toNat_iff {a pointer : Addr} {length : UInt32} :
    LengthKept a pointer length.toNat ↔ lengthFound a pointer length = length := by
  rw [LengthKept, UInt32.ofNat_toNat, UInt32.toNat_inj]

namespace Memory

variable {m : Memory} {a pointer : Addr} {length n : UInt32}

/-- Part of what is in place is in place. -/
theorem Holds.part {a k : Nat} {bs : Bytes} (h : m.Holds ⟨a, bs⟩) (hk : k ≤ bs.length) (n : Nat) :
    m.Holds ⟨a + k, (bs.drop k).take n⟩ := by
  rw [← bs.take_append_drop k] at h
  have htail := h.append.2
  rw [List.length_take_of_le hk, ← (bs.drop k).take_append_drop n] at htail
  exact htail.append.1

/-- A header in place is read without a fault, wherever it lies. -/
theorem loadHeader_of_holds
    (h : m.Holds ⟨a.toNat, wordBytes pointer ++ wordBytes length⟩) :
    m.loadHeader a = pure (pointer, lengthFound a pointer length) := by
  obtain ⟨haddr, hoffset⟩ := toNat_advance_four a
  have hlength : (wordBytes pointer ++ wordBytes length).length = 8 := by
    rw [List.length_append, length_wordBytes, length_wordBytes]
  have hfirst : m.loadWord a = pure pointer := by
    rw [loadWord_of_holds h.append.1 (length_wordBytes pointer), ofBytes_wordBytes]
  have hsecond : m.loadWord (a.advance 4) = pure (lengthFound a pointer length) := by
    apply loadWord_of_holds
    · rw [haddr]
      exact h.part (by omega) 4
    · rw [List.length_take, List.length_drop]
      omega
  rw [loadHeader, hfirst, pure_bind, hsecond, pure_bind]

theorem length_load (h : (m.load a n).fault = none) : (m.load a n).value.length = n.toNat := by
  have hc : m.InBounds a n.toNat := by
    by_contra hout
    rw [load, read, if_neg hout] at h
    contradiction
  rw [load, read, if_pos hc]
  exact m.length_slice hc.1 hc.2

end Memory

namespace Writing

variable {m : Memory} {a pointer : Addr} {length : UInt32}

theorem holds_bytes {bs : Bytes} (h : (Writing.bytes a bs m).fault = none) :
    (Writing.bytes a bs m).value.2.Holds ⟨a.toNat, bs⟩ := by
  have hc := covers_of_bytes h
  rw [bytes_of_covers hc]
  exact Memory.holds_splice hc

theorem holds_header (h : (header a pointer length m).fault = none) :
    (header a pointer length m).value.2.Holds
      ⟨a.toNat, Memory.wordBytes pointer ++ Memory.wordBytes length⟩ := holds_bytes h

/-- A header that is the last thing written is in place. -/
theorem holds_last_header {α β : Type} {first : Writing α} {f : α → β} {w : Writing β}
    (h : (w m).fault = none)
    (hw : w = do
      let x ← first
      header a pointer length
      return f x) :
    (w m).value.2.Holds ⟨a.toNat, Memory.wordBytes pointer ++ Memory.wordBytes length⟩ := by
  have hsteps : w m = first m >>= fun r => header a pointer length r.2 >>= fun r' =>
      pure (f r.1, r'.2) := by rw [hw]; rfl
  rw [hsteps] at h ⊢
  -- the first fault of any step is kept, so without one the header met none
  obtain ⟨-, hrest⟩ := Option.or_eq_none_iff.1 h
  exact holds_header (Option.or_eq_none_iff.1 hrest).1

theorem exists_outOfLine (a data : Addr) (bs : Bytes) :
    ∃ first : Writing UInt32, outOfLine a data bs = do
      let taken ← first
      header a data (UInt32.ofNat bs.length)
      return taken := by
  refine ⟨do
    Writing.bytes data bs
    return UInt32.ofNat bs.length, ?_⟩
  simp only [bind_assoc, pure_bind]
  rfl

end Writing

namespace MemType

variable {t : MemType} {m : Memory} {a data : Addr}

/-- Types whose values lie behind a header. -/
def headed : MemType → Bool
  | string | blob | text | bytes | list _ => true
  | scalar _ | bool | result _ _ => false

/-- What a header has for the length of a value: how many bytes or elements there are. -/
def headerLength : (t : MemType) → t.Val → Nat
  | string, v => (Utf8.encode v.toList).length
  | blob, v => v.length
  | text, v => (Utf8.encode v.raw.toList).length
  | bytes, v => v.raw.length
  | list _, v => v.raw.length
  | _, _ => 0

/-- The value whose header has this pointer and this length. -/
def readRegion : (t : MemType) → Memory → (pointer : Addr) → (length : UInt32) → Outcome t.Val
  | string, m, pointer, length => m.load pointer length >>= readText pointer
  | blob, m, pointer, length => m.load pointer length
  | text, m, pointer, length => do
    return ⟨pointer, ← m.load pointer length >>= readText pointer⟩
  | bytes, m, pointer, length => do return ⟨pointer, ← m.load pointer length⟩
  | list t, m, pointer, length => do
    return ⟨pointer, ← m.loadElements t.size (t.read m) pointer length⟩
  | t, _, _, _ => pure t.default

theorem read_headed (ht : t.headed = true) (m : Memory) (a : Addr) :
    t.read m a = m.loadHeader a >>= fun h => t.readRegion m h.1 h.2 := by
  cases t with
  | string | blob | bytes | list => rfl
  | text => simp only [read, readRegion, bind_assoc]
  | _ => contradiction

/-- The header of a value is the last that is written of it. -/
theorem write_headed (ht : t.headed = true) (v : t.Val) (a data : Addr) :
    ∃ first : Writing UInt32, t.write v a data = do
      let taken ← first
      Writing.header a data (UInt32.ofNat (t.headerLength v))
      return taken := by
  cases t with
  | string => exact Writing.exists_outOfLine a data (Utf8.encode v.toList)
  | blob => exact Writing.exists_outOfLine a data v
  | text => exact Writing.exists_outOfLine a data (Utf8.encode v.raw.toList)
  | bytes => exact Writing.exists_outOfLine a data v.raw
  | list t => exact ⟨Writing.elements t.size t.write v.raw data, rfl⟩
  | _ => contradiction

theorem encode_readText {bs : Bytes} (h : (readText a bs).fault = none) :
    Utf8.encode (readText a bs).value.toList = bs := by
  cases hcs : Utf8.decode? bs with
  | none =>
    rw [readText, hcs] at h
    contradiction
  | some cs =>
    rw [readText, hcs, value_pure, String.toList_ofList]
    exact (Utf8.eq_encode_of_decode? hcs).symm

/-- What is read without a fault has the length by which it was looked for. -/
theorem headerLength_readRegion (ht : t.headed = true) {pointer : Addr} {length : UInt32}
    (h : (t.readRegion m pointer length).fault = none) :
    t.headerLength (t.readRegion m pointer length).value = length.toNat := by
  cases t with
  | string =>
    obtain ⟨hload, htext⟩ := Option.or_eq_none_iff.1 h
    exact (congrArg List.length (encode_readText htext)).trans (Memory.length_load hload)
  | blob => exact Memory.length_load h
  | text =>
    obtain ⟨hload, htext⟩ := Option.or_eq_none_iff.1 (Option.or_eq_none_iff.1 h).1
    exact (congrArg List.length (encode_readText htext)).trans (Memory.length_load hload)
  | bytes => exact Memory.length_load (Option.or_eq_none_iff.1 h).1
  | list t =>
    have hregion := Memory.hasElements_of_fault (Option.or_eq_none_iff.1 h).1
    have hvalue := Memory.value_loadElements hregion (t.read m)
    change (m.loadElements t.size (t.read m) pointer length).value.length = length.toNat
    rw [hvalue, List.length_map, List.length_range]
  | _ => contradiction

/-- A value that is written without a fault is read by its pointer and by the length that is found. -/
theorem read_written (ht : t.headed = true) {v : t.Val} (h : (t.write v a data m).fault = none) :
    let m' := (t.write v a data m).value.2
    t.read m' a =
      t.readRegion m' data (lengthFound a data (UInt32.ofNat (t.headerLength v))) := by
  intro m'
  obtain ⟨first, hwrite⟩ := t.write_headed ht v a data
  have held : m'.Holds ⟨a.toNat, _⟩ := Writing.holds_last_header h hwrite
  rw [t.read_headed ht, Memory.loadHeader_of_holds held, pure_bind]

end MemType

namespace Frame

/-- A list that is handed over by a pointer is written in memory form, and the pointer is pushed. -/
theorem lower_indirectList (fr : Frame) (t : MemType) (v : IndirectList t.Val) :
    fr.lower (.indirectList t) v =
      (fr.writeValue (.list t) ⟨v.dataPtr, v.raw⟩ v.offset v.dataPtr).2.push v.offset.toUInt64 := by
  let o := (MemType.list t).write ⟨v.dataPtr, v.raw⟩ v.offset v.dataPtr fr.memory
  have hlower : (HostType.indirectList t).lower v fr.toResources =
      ⟨([v.offset.toUInt64], { fr.toResources with memory := o.value.2 }), o.fault⟩ := by
    apply Outcome.ext
    · rfl
    · exact Option.or_none
  rw [writeValue_eq]
  unfold lower giving
  rw [hlower]
  rfl

/-- It is read in memory form where the pointer leads. -/
theorem lift_indirectList (fr : Frame) (t : MemType) (pointer : Cell) :
    (fr.push pointer).lift (.indirectList t) =
      let found := fr.readValue (.list t) pointer.toUInt32
      (⟨pointer.toUInt32, found.1.offset, found.1.raw⟩, found.2) := by
  let o := (MemType.list t).read fr.memory pointer.toUInt32
  have hlift : (HostType.indirectList t).lift fr.toResources (pointer :: fr.stack) =
      ⟨(⟨pointer.toUInt32, o.value.offset, o.value.raw⟩, fr.stack), o.fault⟩ := by
    apply Outcome.ext
    · rfl
    · let h := fr.memory.loadHeader pointer.toUInt32
      let e := fr.memory.loadElements t.size (t.read fr.memory) h.value.1 h.value.2
      change ((none : Option Fault).or none).or ((h.fault.or none).or ((e.fault.or none).or none)) =
        h.fault.or (e.fault.or none)
      simp only [Option.or_none, Option.none_or]
  unfold lift taking push
  rw [hlift]
  rfl

/-- A value behind a header that is written without a fault is read by its pointer and by the length
that is found. -/
theorem readValue_written {fr : Frame} {t : MemType} (ht : t.headed = true) {v : t.Val}
    {a data : Addr} (h : (fr.writeValue t v a data).2.fault = none) :
    let written := (fr.writeValue t v a data).2
    let found := lengthFound a data (UInt32.ofNat (t.headerLength v))
    written.readValue t a = written.settle (t.readRegion written.memory data found) ∧
      ((written.readValue t a).2.fault = none →
        t.headerLength (written.readValue t a).1 = found.toNat) := by
  intro written found
  have hwrite : (t.write v a data fr.memory).fault = none := by
    rw [writeValue_eq] at h
    exact (Option.or_eq_none_iff.1 h).2
  have hmemory : written.memory = (t.write v a data fr.memory).value.2 := by
    rw [show written = (fr.writeValue t v a data).2 from rfl, writeValue_eq]
  have hread := MemType.read_written ht hwrite
  rw [← hmemory] at hread
  have hvalue : written.readValue t a = written.settle (t.readRegion written.memory data found) :=
    congrArg written.settle hread
  refine ⟨hvalue, fun hclean => ?_⟩
  rw [hvalue] at hclean ⊢
  exact MemType.headerLength_readRegion ht (Option.or_eq_none_iff.1 hclean).2

end Frame

/-- A header that is written without a fault is read without one and with its pointer. So is the
header of a value in memory form and of a list that is handed over by a pointer, and what is read
without a fault has the length that is found. All have the length that was written just where it is
kept: wherever it lies at an address, and so in every memory that ends at most three bytes behind
the last one. -/
theorem header_read_back (fr : Frame) (a data : Addr) :
    (∀ length : UInt32,
      let written := Writing.header a data length fr.memory
      let found := written.value.2.loadHeader a
      written.fault = none →
        found.fault = none ∧ found.value.1 = data ∧
        (found.value = (data, length) ↔ LengthKept a data length.toNat)) ∧
    (∀ (t : MemType) (v : t.Val), t.headed = true →
      let written := (fr.writeValue t v a data).2
      let found := written.readValue t a
      let length := lengthFound a data (UInt32.ofNat (t.headerLength v))
      written.fault = none →
        found = written.settle (t.readRegion written.memory data length) ∧
        (found.2.fault = none →
          (t.headerLength found.1 = t.headerLength v ↔ LengthKept a data (t.headerLength v)))) ∧
    (∀ (t : MemType) (xs : List t.Val),
      let lowered := fr.lower (.indirectList t) ⟨a, data, xs⟩
      let found := lowered.lift (.indirectList t)
      lowered.fault = none →
        found.1.offset = a ∧ found.1.dataPtr = data ∧ found.2.stack = fr.stack ∧
        (found.2.fault = none →
          (found.1.raw.length = xs.length ↔ LengthKept a data xs.length))) ∧
    (a.toNat + 4 < Addr.space ∨
        fr.memory.Covers a.toNat headerSize ∧ fr.memory.limit < Addr.space + 4 →
      ∀ n < Addr.space, LengthKept a data n) := by
  refine ⟨?_, ?_, ?_, ?_⟩
  · intro length written found h
    have hfound : found = pure (data, lengthFound a data length) :=
      Memory.loadHeader_of_holds (Writing.holds_header h)
    rw [hfound, lengthKept_toNat_iff]
    refine ⟨rfl, rfl, ?_⟩
    rw [Outcome.value_pure, Prod.mk.injEq]
    exact and_iff_right rfl
  · intro t v ht written found length h
    obtain ⟨hfound, hlength⟩ := Frame.readValue_written ht h
    refine ⟨hfound, fun hclean => ?_⟩
    rw [hlength hclean]
    exact Iff.rfl
  · intro t xs lowered found h
    let written := (fr.writeValue (.list t) ⟨data, xs⟩ a data).2
    let list := written.readValue (.list t) a
    have hlowered : lowered = written.push a.toUInt64 := fr.lower_indirectList t ⟨a, data, xs⟩
    have hfound : found = (⟨a, list.1.offset, list.1.raw⟩, list.2) := by
      change lowered.lift _ = _
      rw [hlowered, Frame.lift_indirectList, UInt32.toUInt32_toUInt64]
    have hwrite : written.fault = none := by
      rw [hlowered] at h
      exact h
    obtain ⟨hlist, hlength⟩ := Frame.readValue_written (t := .list t) rfl hwrite
    have hpointer : list.1.offset = data := by
      change (written.readValue (.list t) a).1.offset = data
      rw [hlist]
      rfl
    rw [hfound]
    refine ⟨rfl, hpointer, rfl, fun hclean => ?_⟩
    exact iff_of_eq (congrArg (· = xs.length) (hlength hclean))
  · rintro (hlt | ⟨⟨-, hend⟩, hlimit⟩) n hn
    · exact lengthKept_of_lt hlt data hn
    · refine lengthKept_of_lt ?_ data hn
      unfold headerSize at hend
      omega

/-- A header that ends three bytes behind the last address: its length begins at that address. -/
theorem header_read_back_straddling :
    let fr : Frame :=
      .start ⟨⟨0xfffffff8, Array.replicate 11 7, Addr.space + 3⟩, none, false⟩ []
    let header := Writing.header 0xfffffffb 0xfffffff8 0x01020304 fr.memory
    let written := (fr.writeValue .blob [1, 2] 0xfffffffb 0xfffffff8).2
    let blob := written.readValue .blob 0xfffffffb
    let lowered := fr.lower (.indirectList (.scalar .u8)) ⟨0xfffffffb, 0xfffffff8, [1, 2, 3]⟩
    let list := lowered.lift (.indirectList (.scalar .u8))
    header.fault = none ∧
      (header.value.2.loadHeader 0xfffffffb).value = (0xfffffff8, 0x01020304) ∧
      written.fault = none ∧ blob.2.fault = none ∧ blob.1.length = 2 ∧
      lowered.fault = none ∧ list.2.fault = none ∧ list.1.raw.length = 3 := by
  intro fr header written blob lowered list
  have hheader : header.fault = none := by decide
  have hwritten : written.fault = none := by decide
  have hblob : blob.2.fault = none := by decide
  have hlowered : lowered.fault = none := by decide
  have hlist : list.2.fault = none := by decide
  obtain ⟨hpair, hvalue, hindirect, hkept⟩ := header_read_back fr 0xfffffffb 0xfffffff8
  have hkept := hkept (.inr (by decide))
  have hload := (hpair 0x01020304 hheader).2.2.2 (hkept _ (by decide))
  have hlength := ((hvalue .blob [1, 2] rfl hwritten).2 hblob).2 (hkept 2 (by decide))
  have hcount := ((hindirect (.scalar .u8) [1, 2, 3] hlowered).2.2.2 hlist).2 (hkept 3 (by decide))
  exact ⟨hheader, hload, hwritten, hblob, hlength, hlowered, hlist, hcount⟩

/-- At the last four addresses a header is read with another length and no fault tells: 1 is read as
256, and of an empty run of bytes and an empty list come 255, the last byte of their pointer. -/
theorem header_length_overwritten :
    let beyond (n : Nat) : Memory :=
      ⟨Addr.space + 4 - n, Array.replicate n 0, Addr.space + 4⟩
    let fr : Frame := .start ⟨beyond 260, none, false⟩ []
    let header := Writing.header 0xfffffffc 0 1 (beyond 8)
    let written := (fr.writeValue .blob [] 0xfffffffc 0xffffff00).2
    let blob := written.readValue .blob 0xfffffffc
    let lowered := fr.lower (.indirectList (.scalar .u8)) ⟨0xfffffffc, 0xffffff00, []⟩
    let list := lowered.lift (.indirectList (.scalar .u8))
    header.fault = none ∧ header.value.2.loadHeader 0xfffffffc = pure (0, 256) ∧
      written.fault = none ∧ blob.2.fault = none ∧ blob.1.length = 255 ∧
      lowered.fault = none ∧ list.2.fault = none ∧ list.1.raw.length = 255 :=
  ⟨rfl, rfl, by decide +kernel, by decide +kernel, by decide +kernel, by decide +kernel,
    by decide +kernel, by decide +kernel⟩

end HostCall
