import HostCall.Frame
import HostCall.Proofs.Layout

/-! Putting pieces in memory. Pieces in the memory that lie apart can be read back once all of them
are put there, whatever was there before. Below the end of the address space, where no address
saturates, writing a value puts the pieces of its memory form one after the other. -/

namespace HostCall

namespace Memory

variable {m : Memory} {p q : Piece} {ps : List Piece}

/-- The bytes of `p` are in place. -/
def Holds (m : Memory) (p : Piece) : Prop := m.bytes? p.start p.bytes.length = some p.bytes

/-- `m` with all of `ps` in place, the last in front where they overlap. -/
def put (m : Memory) (ps : List Piece) : Memory :=
  ps.foldl (fun m p => m.splice p.start p.bytes) m

@[simp] theorem limit_splice (m : Memory) (a : Nat) (bs : Bytes) :
    (m.splice a bs).limit = m.limit := by
  simp only [limit, splice, size_overwrite]

@[simp] theorem covers_splice (m : Memory) (a : Nat) (bs : Bytes) (b n : Nat) :
    (m.splice a bs).Covers b n ↔ m.Covers b n := by
  simp only [Covers, limit_splice]
  exact Iff.rfl

theorem holds_iff : m.Holds p ↔ m.Covers p.start p.bytes.length ∧
    ∀ i, i < p.bytes.length → m.byte? (p.start + i) = p.bytes[i]? := by
  unfold Holds bytes?
  by_cases hc : m.Covers p.start p.bytes.length
  · rw [if_pos hc, Option.some_inj]
    constructor
    · intro h
      refine ⟨hc, ?_⟩
      intro i hi
      rw [← getElem?_slice m hc.1 hc.2 hi, h]
    · intro h
      apply List.ext_getElem?
      intro i
      by_cases hi : i < p.bytes.length
      · rw [getElem?_slice m hc.1 hc.2 hi, h.2 i hi]
      · have hlen := length_slice m hc.1 hc.2
        rw [List.getElem?_eq_none (by omega), List.getElem?_eq_none (by omega)]
  · rw [if_neg hc]
    exact ⟨fun h => by contradiction, fun h => absurd h.1 hc⟩

theorem holds_splice (hc : m.Covers p.start p.bytes.length) :
    (m.splice p.start p.bytes).Holds p := by
  refine holds_iff.2 ⟨(covers_splice ..).2 hc, ?_⟩
  intro i hi
  rw [byte?_splice m hc.1 hc.2, if_pos (by omega)]
  congr 1
  omega

theorem Holds.splice (h : m.Holds p) (hc : m.Covers q.start q.bytes.length)
    (hd : p.span.Disjoint q.span) : (m.splice q.start q.bytes).Holds p := by
  obtain ⟨hp, hbytes⟩ := holds_iff.1 h
  refine holds_iff.2 ⟨(covers_splice ..).2 hp, ?_⟩
  intro i hi
  have hout : ¬(q.start ≤ p.start + i ∧ p.start + i < q.start + q.bytes.length) :=
    hd (p.start + i) ⟨Nat.le_add_right _ _, Nat.add_lt_add_left hi _⟩
  rw [byte?_splice m hc.1 hc.2, if_neg hout, hbytes i hi]

theorem Holds.put (h : m.Holds p) (hc : ∀ q ∈ ps, m.Covers q.start q.bytes.length)
    (hd : ∀ q ∈ ps, p.span.Disjoint q.span) : (m.put ps).Holds p := by
  induction ps generalizing m with
  | nil => exact h
  | cons q qs ih =>
    have hq := h.splice (hc q List.mem_cons_self) (hd q List.mem_cons_self)
    apply ih hq
    · intro r hr
      exact (covers_splice ..).2 (hc r (List.mem_cons_of_mem q hr))
    · intro r hr
      exact hd r (List.mem_cons_of_mem q hr)

/-- Pieces that lie apart are all in place once they are put there. -/
theorem holds_put (hc : ∀ q ∈ ps, m.Covers q.start q.bytes.length)
    (hd : ps.Pairwise fun p q => p.span.Disjoint q.span) : ∀ p ∈ ps, (m.put ps).Holds p := by
  induction ps generalizing m with
  | nil =>
    intro p hp
    contradiction
  | cons q qs ih =>
    obtain ⟨hq, hqs⟩ := List.pairwise_cons.1 hd
    have hrest : ∀ r ∈ qs, (m.splice q.start q.bytes).Covers r.start r.bytes.length :=
      fun r hr => (covers_splice ..).2 (hc r (List.mem_cons_of_mem q hr))
    intro p hp
    rcases List.mem_cons.1 hp with rfl | hp
    · exact (holds_splice (hc p List.mem_cons_self)).put hrest hq
    · exact ih hrest hqs p hp

@[simp] theorem base_put (m : Memory) (ps : List Piece) : (m.put ps).base = m.base := by
  induction ps generalizing m with
  | nil => rfl
  | cons q qs ih => exact ih _

@[simp] theorem limit_put (m : Memory) (ps : List Piece) : (m.put ps).limit = m.limit := by
  induction ps generalizing m with
  | nil => rfl
  | cons q qs ih => exact (ih _).trans (limit_splice ..)

@[simp] theorem covers_put (m : Memory) (ps : List Piece) (a n : Nat) :
    (m.put ps).Covers a n ↔ m.Covers a n := by
  simp only [Covers, base_put, limit_put]

theorem Addressable.put (hm : m.Addressable) (ps : List Piece) : (m.put ps).Addressable := by
  simpa only [Addressable, base_put, limit_put] using hm

end Memory

namespace Writing

/-- Writes pieces one after the other. -/
def pieces : List Piece → Writing Unit
  | [] => pure ()
  | p :: ps => do
    Writing.bytes (UInt32.ofNat p.start) p.bytes
    pieces ps

theorem pieces_append (ps qs : List Piece) :
    pieces (ps ++ qs) = pieces ps >>= fun _ => pieces qs := by
  induction ps with
  | nil => exact (pure_bind _ _).symm
  | cons p ps ih => simp only [List.cons_append, pieces, ih, bind_assoc]

/-- Pieces in the memory are put there without a fault. -/
theorem pieces_eq_put {m : Memory} {ps : List Piece}
    (hc : ∀ p ∈ ps, m.Covers p.start p.bytes.length) (hs : ∀ p ∈ ps, p.start < Addr.space) :
    pieces ps m = pure ((), m.put ps) := by
  induction ps generalizing m with
  | nil => rfl
  | cons p ps ih =>
    have haddr : (UInt32.ofNat p.start).toNat = p.start :=
      Addr.toNat_ofNat_of_lt (hs p List.mem_cons_self)
    have hin : m.InBounds (UInt32.ofNat p.start) p.bytes.length := by
      have hp := hc p List.mem_cons_self
      unfold Memory.InBounds
      rwa [haddr]
    have hrest := ih (m := m.splice p.start p.bytes)
      (fun q hq => (Memory.covers_splice ..).2 (hc q (List.mem_cons_of_mem p hq)))
      fun q hq => hs q (List.mem_cons_of_mem p hq)
    change (Writing.bytes _ p.bytes m >>= fun r => pieces ps r.2) = _
    rw [Writing.bytes, Memory.store, Memory.write, if_pos hin, haddr]
    exact hrest

theorem bytes_eq_pieces (a : Addr) (bs : Bytes) : Writing.bytes a bs = pieces [⟨a.toNat, bs⟩] := by
  simp only [pieces, UInt32.ofNat_toNat]
  exact (bind_pure _).symm

theorem header_eq_pieces (a pointer : Addr) {n : Nat} (hn : n < Addr.space) :
    header a pointer (UInt32.ofNat n) = pieces [⟨a.toNat, headerBytes pointer.toNat n⟩] := by
  rw [header, bytes_eq_pieces]
  simp only [Memory.wordBytes, headerBytes, Addr.toNat_ofNat_of_lt hn]

theorem word_eq_pieces (a : Addr) (w : UInt32) :
    word a w = pieces [⟨a.toNat, LittleEndian.toBytes 4 w.toNat⟩] :=
  bytes_eq_pieces a _

theorem outOfLine_eq_pieces (a data : Addr) (bs : Bytes)
    (h : data.toNat + bs.length < Addr.space) :
    outOfLine a data bs = do
      pieces (pointed bs a.toNat data.toNat)
      return UInt32.ofNat bs.length := by
  have hpointed : pointed bs a.toNat data.toNat =
      [⟨data.toNat, bs⟩] ++ [⟨a.toNat, headerBytes data.toNat bs.length⟩] := rfl
  have hn : bs.length < Addr.space := by omega
  rw [hpointed, pieces_append, ← bytes_eq_pieces, ← header_eq_pieces a data hn, bind_assoc]
  rfl

/-- A tag in front of a payload that is put as pieces. -/
theorem tagged_eq_pieces (tag a : Addr) {payload : Writing UInt32} {ps : List Piece} {n : UInt32}
    (h : payload = do
      pieces ps
      return n) :
    (do
      word a tag
      payload) = do
      pieces (tagged tag.toNat a.toNat ps)
      return n := by
  rw [h, word_eq_pieces, ← bind_assoc, ← pieces_append]
  rfl

section Elements

variable {α : Type} {size : Nat} {extent outLength : α → Nat}
  {layout : α → Nat → Nat → List Piece} {write : α → Addr → Addr → Writing UInt32}

/-- Writing elements in turn: as long as the running addresses stay below the end of the address
space, each element is written at its exact place. -/
theorem each_element_eq (hsize : ∀ x, extent x ≤ size)
    (hwrite : ∀ x (a data : Addr), a.toNat + extent x < Addr.space →
      data.toNat + outLength x < Addr.space →
      write x a data = do
        pieces (layout x a.toNat data.toNat)
        return UInt32.ofNat (outLength x))
    (xs : List α) (a data : Addr) (ha : a.toNat + xs.length * size < Addr.space)
    (hdata : data.toNat + outLengths outLength xs < Addr.space) :
    each (element size write) (a, data) xs = do
      pieces (spread size outLength layout xs a.toNat data.toNat)
      return (UInt32.ofNat (a.toNat + xs.length * size),
        UInt32.ofNat (data.toNat + outLengths outLength xs)) := by
  induction xs generalizing a data with
  | nil =>
    simp only [spread, outLengths, List.length_nil, Nat.zero_mul, Nat.add_zero,
      UInt32.ofNat_toNat]
    rfl
  | cons x xs ih =>
    rw [List.length_cons, Nat.add_mul, Nat.one_mul] at ha
    rw [outLengths] at hdata
    have hx := hsize x
    have htaken : (UInt32.ofNat (outLength x)).toNat = outLength x :=
      Addr.toNat_ofNat_of_lt (by omega)
    have ha' : (a.advance size).toNat = a.toNat + size := Addr.toNat_advance_of_lt (by omega)
    have hd' : (data.advance (outLength x)).toNat = data.toNat + outLength x :=
      Addr.toNat_advance_of_lt (by omega)
    have hrest := ih (a.advance size) (data.advance (outLength x)) (by omega) (by omega)
    rw [ha', hd'] at hrest
    have haend : a.toNat + size + xs.length * size = a.toNat + (xs.length * size + size) := by omega
    rw [each_cons, element, hwrite x a data (by omega) (by omega)]
    simp only [bind_assoc, pure_bind, htaken, hrest, spread, pieces_append]
    rw [List.length_cons, outLengths, Nat.add_mul, Nat.one_mul, haend,
      Nat.add_assoc]

theorem elements_eq_pieces (hpos : 0 < size) (hsize : ∀ x, extent x ≤ size)
    (hwrite : ∀ x (a data : Addr), a.toNat + extent x < Addr.space →
      data.toNat + outLength x < Addr.space →
      write x a data = do
        pieces (layout x a.toNat data.toNat)
        return UInt32.ofNat (outLength x))
    (xs : List α) (a : Addr) (ha : a.toNat + packedLength size outLength xs < Addr.space) :
    elements size write xs a = do
      pieces (packed size outLength layout xs a.toNat)
      return UInt32.ofNat (packedLength size outLength xs) := by
  have hlen : xs.length ≤ xs.length * size := Nat.le_mul_of_pos_right _ hpos
  unfold packedLength at ha
  have hdata : (a.advance (xs.length * size)).toNat = a.toNat + xs.length * size :=
    Addr.toNat_advance_of_lt (by omega)
  have heach := each_element_eq hsize hwrite xs a (a.advance (xs.length * size)) (by omega)
    (by rw [hdata]; omega)
  -- the running address ends behind the last byte written, `packedLength` away from `a`
  have htaken : UInt32.ofNat (a.toNat + xs.length * size + outLengths outLength xs) - a =
      UInt32.ofNat (packedLength size outLength xs) := by
    apply UInt32.toNat_inj.1
    have := a.toNat_lt_space
    unfold packedLength
    rw [UInt32.toNat_sub, Addr.toNat_ofNat_of_lt (by omega), Addr.toNat_ofNat_of_lt (by omega)]
    unfold Addr.space at *
    omega
  rw [hdata] at heach
  rw [elements, Addr.toNat_ofNat_of_lt (by omega)]
  simp only [heach, bind_assoc, pure_bind, htaken]
  rfl

end Elements

end Writing

open Writing

namespace MemType

/-- Below the end of the address space writing a value puts the pieces of its memory form. -/
theorem write_eq_pieces (t : MemType) (v : t.Val) (a data : Addr)
    (ha : a.toNat + t.extent v < Addr.space) (hdata : data.toNat + t.outLength v < Addr.space) :
    t.write v a data = do
      Writing.pieces (t.layout v a.toNat data.toNat)
      return UInt32.ofNat (t.outLength v) := by
  induction t generalizing a data with
  | scalar s =>
    rw [write, bytes_eq_pieces]
    rfl
  | bool =>
    rw [write, bytes_eq_pieces]
    rfl
  | string => exact outOfLine_eq_pieces a data _ hdata
  | blob => exact outOfLine_eq_pieces a data _ hdata
  | text => exact outOfLine_eq_pieces a data _ hdata
  | bytes => exact outOfLine_eq_pieces a data _ hdata
  | list t ih =>
    have hn : v.raw.length < Addr.space := by
      have hlen := length_le_packedLength t.size t.outLength t.size_pos v.raw
      dsimp only [outLength] at hdata
      omega
    rw [write, elements_eq_pieces t.size_pos t.extent_le_size ih v.raw data hdata,
      header_eq_pieces a data hn]
    simp only [layout, pieces_append, bind_assoc, pure_bind]
    rfl
  | result t e iht ihe =>
    obtain ⟨offset, dataPtr, value⟩ := v
    cases value with
    | ok x =>
      dsimp only [extent, outLength] at ha hdata
      have hpayload : (a.advance tagSize).toNat = a.toNat + tagSize :=
        Addr.toNat_advance_of_lt (by omega)
      have hx := iht x (a.advance tagSize) data (by omega) hdata
      rw [hpayload] at hx
      exact tagged_eq_pieces 0 a hx
    | error x =>
      dsimp only [extent, outLength] at ha hdata
      have hpayload : (a.advance tagSize).toNat = a.toNat + tagSize :=
        Addr.toNat_advance_of_lt (by omega)
      have hx := ihe x (a.advance tagSize) data (by omega) hdata
      rw [hpayload] at hx
      exact tagged_eq_pieces 1 a hx

/-- The cells that a value is pushed as, the first pushed first. -/
def cells : (t : MemType) → t.Val → List Cell
  | scalar s, v => [s.toCell v]
  | bool, v => [if v then 1 else 0]
  | string, _ | blob, _ => []
  | text, v => regionCells v.offset (Utf8.encode v.raw.toList).length
  | bytes, v => regionCells v.offset v.raw.length
  | list _, v => regionCells v.offset v.raw.length
  | result _ _, v => [v.offset.toUInt64]

theorem lower_eq_pieces (t : MemType) (v : t.Val)
    (h : ∀ s ∈ t.spans v, s.start + s.length < Addr.space) :
    t.lower v = do
      Writing.pieces (t.pieces v)
      return t.cells v := by
  cases t with
  | scalar | bool | string | blob => rfl
  | text | bytes =>
    rw [lower, bytes_eq_pieces]
    rfl
  | list t =>
    have hv := h _ (List.mem_singleton_self _)
    rw [lower, elements_eq_pieces t.size_pos t.extent_le_size t.write_eq_pieces v.raw v.offset hv]
    simp only [bind_assoc, pure_bind]
    rfl
  | result t e =>
    have ha := h _ List.mem_cons_self
    have hdata := h _ (List.mem_cons_of_mem _ List.mem_cons_self)
    rw [lower, write_eq_pieces _ v v.offset v.dataPtr ha hdata]
    simp only [bind_assoc, pure_bind]
    rfl

end MemType

namespace Lowering

theorem onMemory_bind {α β : Type} (w : Writing α) (next : α → Writing β) :
    onMemory (w >>= next) = onMemory w >>= fun a => onMemory (next a) := by
  funext env
  apply Outcome.ext
  · rfl
  · change ((w env.memory).fault.or (next (w env.memory).value.1 _).fault).or none =
      ((w env.memory).fault.or none).or ((next (w env.memory).value.1 _).fault.or none)
    simp only [Option.or_none]

end Lowering

namespace HostType

/-- Types whose values are pushed and taken back without a table of host values. -/
def portable : HostType → Bool
  | mem t => t.lowerable
  | handle _ | context | counter => false
  | pair l r => l.portable && r.portable
  | _ => true

/-- The cells that a portable value is pushed as, the first pushed first. -/
def cells : (t : HostType) → t.Val → List Cell
  | mem t, v => t.cells v
  | intPtr, v => [v.toUInt64]
  | uintPtr, v => [v]
  | unit, _ | handle _, _ | context, _ | counter, _ => []
  | duration, v => [v.ticks]
  | time, v => [(Int64.ofInt v.seconds).toUInt64]
  | complex64, v => [Scalar.f32.toCell v.im, Scalar.f32.toCell v.re]
  | complex128, v => [Scalar.f64.toCell v.im, Scalar.f64.toCell v.re]
  | indirectList _, v => [v.offset.toUInt64]
  | pair l r, v => l.cells v.1 ++ r.cells v.2

/-- Below the end of the address space lowering a portable value puts its pieces in memory and gives
its cells. -/
theorem lower_eq_pieces (t : HostType) (ht : t.portable = true) (v : t.Val)
    (h : ∀ s ∈ t.spans v, s.start + s.length < Addr.space) :
    t.lower v = do
      Lowering.onMemory (Writing.pieces (t.pieces v))
      return t.cells v := by
  induction t with
  | mem t =>
    rw [lower, t.lower_eq_pieces v h, Lowering.onMemory_bind]
    rfl
  | indirectList t =>
    have hdata := h _ List.mem_cons_self
    have hn : v.raw.length < Addr.space := by
      have hlen := length_le_packedLength t.size t.outLength t.size_pos v.raw
      dsimp only at hdata
      omega
    rw [lower, elements_eq_pieces t.size_pos t.extent_le_size t.write_eq_pieces v.raw v.dataPtr
      hdata, header_eq_pieces v.offset v.dataPtr hn]
    simp only [pieces, Writing.pieces_append, bind_assoc, pure_bind, Lowering.onMemory_bind]
    rfl
  | pair l r ihl ihr =>
    obtain ⟨hl, hr⟩ := (Bool.and_eq_true _ _).mp ht
    have hleft := ihl hl v.1 fun s hs => h s (List.mem_append_left _ hs)
    have hright := ihr hr v.2 fun s hs => h s (List.mem_append_right _ hs)
    simp only [lower, pieces, hleft, hright, Writing.pieces_append, Lowering.onMemory_bind,
      bind_assoc, pure_bind]
    rfl
  | time =>
    rw [lower, Timestamp.tick_eq]
    rfl
  | handle | context | counter => contradiction
  | _ => rfl

/-- In a memory that has its regions, lowering a portable value only puts its pieces there. -/
theorem lower_eq_put (t : HostType) (ht : t.portable = true) (v : t.Val) {env : Resources}
    (hm : env.memory.Addressable) (hs : ∀ s ∈ t.spans v, env.memory.Covers s.start s.length) :
    t.lower v env = pure (t.cells v, { env with memory := env.memory.put (t.pieces v) }) := by
  have hend : ∀ s ∈ t.spans v, s.start + s.length < Addr.space := fun s h =>
    Nat.lt_of_le_of_lt (hs s h).2 (hm.limit_lt (t.start_lt_of_mem_spans v s h) (hs s h))
  have hpieces : Writing.pieces (t.pieces v) env.memory =
      pure ((), env.memory.put (t.pieces v)) := by
    refine pieces_eq_put (t.covers_pieces v hs) ?_
    intro p hp
    obtain ⟨s, h, hin⟩ := t.inside_pieces v p hp
    exact Nat.lt_of_le_of_lt (Nat.le_trans (Nat.le_add_right _ _) hin.2) (hend s h)
  rw [t.lower_eq_pieces ht v hend]
  change (Lowering.onMemory _ env >>= fun r => pure (t.cells v, r.2)) = _
  rw [Lowering.onMemory, hpieces]
  rfl

end HostType

end HostCall
