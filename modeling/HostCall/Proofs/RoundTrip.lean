import HostCall.Proofs.Exactness
import HostCall.Proofs.Placement
import HostCall.Text.Utf8.RoundTrip

/-! Lowering a value and lifting it again. What pieces in memory hold is read back by the reference
decoder, so a portable value whose regions lie in the memory and apart from each other comes back
with its content. Only the addresses of nested values are not kept: they are what the layout made
them. -/

namespace HostCall

/-- What is left of a value without the addresses in it. -/
@[reducible] def MemType.Content : MemType → Type
  | scalar s => s.Val
  | bool => Bool
  | string | text => String
  | blob | bytes => Bytes
  | list t => List t.Content
  | result t e => Except e.Content t.Content

def MemType.content : (t : MemType) → t.Val → t.Content
  | scalar _, v => v
  | bool, v => v
  | string, v => v
  | blob, v => v
  | text, v => v.raw
  | bytes, v => v.raw
  | list t, v => v.raw.map t.content
  | result t e, v => (v.value.map t.content).mapError e.content

/-- What is left of a value without the addresses in it. -/
@[reducible] def HostType.Content : HostType → Type
  | mem t => t.Content
  | indirectList t => List t.Content
  | pair l r => l.Content × r.Content
  | t => t.Val

def HostType.content : (t : HostType) → t.Val → t.Content
  | mem t, v => t.content v
  | intPtr, v => v
  | uintPtr, v => v
  | unit, v => v
  | duration, v => v
  | time, v => v
  | complex64, v => v
  | complex128, v => v
  | indirectList t, v => v.raw.map t.content
  | pair l r, v => (l.content v.1, r.content v.2)
  | handle _, v => v
  | context, v => v
  | counter, v => v

/-- Nothing of the value is lost in its cells: durations fit into 64 bits of nanoseconds and times
are whole seconds. -/
def HostType.Lossless : (t : HostType) → t.Val → Prop
  | duration, v => v.nanoseconds < UInt64.size
  | time, v => ∃ s : Int64, v = .ofSeconds s
  | pair l r, v => l.Lossless v.1 ∧ r.Lossless v.2
  | _, _ => True

theorem text?_encode (s : String) : text? (Utf8.encode s.toList) = some s := by
  rw [text?, Utf8.decode?_encode, Option.map_some, String.ofList_toList]

namespace Memory

variable {m : Memory}

theorem Holds.append {a : Nat} {xs ys : Bytes} (h : m.Holds ⟨a, xs ++ ys⟩) :
    m.Holds ⟨a, xs⟩ ∧ m.Holds ⟨a + xs.length, ys⟩ := by
  obtain ⟨hc, hbytes⟩ := holds_iff.1 h
  dsimp only at hc hbytes
  rw [List.length_append] at hc hbytes
  obtain ⟨hbase, hlimit⟩ := hc
  constructor
  · refine holds_iff.2 ⟨⟨hbase, by dsimp only; omega⟩, ?_⟩
    intro i hi
    dsimp only at hi
    rw [hbytes i (by omega), List.getElem?_append_left hi]
  · refine holds_iff.2 ⟨⟨by dsimp only; omega, by dsimp only; omega⟩, ?_⟩
    intro i hi
    dsimp only at hi ⊢
    rw [Nat.add_assoc, hbytes _ (by omega), List.getElem?_append_right (by omega)]
    congr 1
    omega

theorem word?_of_holds {a n : Nat} (h : m.Holds ⟨a, LittleEndian.toBytes 4 n⟩)
    (hn : n < Addr.space) : m.word? a = some (UInt32.ofNat n) := by
  have hbytes : m.bytes? a 4 = some (LittleEndian.toBytes 4 n) := by
    rw [← LittleEndian.length_toBytes 4 n]
    exact h
  rw [word?, hbytes]
  change some (UInt32.ofNat (LittleEndian.ofBytes _)) = _
  rw [LittleEndian.ofBytes_toBytes, Nat.mod_eq_of_lt (show n < LittleEndian.capacity 4 from hn)]

theorem length_wordBytes (w : UInt32) : (wordBytes w).length = 4 :=
  LittleEndian.length_toBytes 4 w.toNat

theorem ofBytes_wordBytes (w : UInt32) :
    UInt32.ofNat (LittleEndian.ofBytes (wordBytes w)) = w := by
  rw [wordBytes, LittleEndian.ofBytes_toBytes,
    Nat.mod_eq_of_lt (show w.toNat < LittleEndian.capacity 4 from w.toNat_lt), UInt32.ofNat_toNat]

/-- Four bytes in place are loaded as the word that they make. -/
theorem loadWord_of_holds {a : Addr} {bs : Bytes} (h : m.Holds ⟨a.toNat, bs⟩)
    (hbs : bs.length = 4) : m.loadWord a = pure (UInt32.ofNat (LittleEndian.ofBytes bs)) := by
  unfold Holds at h
  rw [hbs] at h
  apply Outcome.eq_pure_of_clean?
  rw [clean?_loadWord, word?, h]
  rfl

theorem header?_of_holds {a pointer n : Nat} (h : m.Holds ⟨a, headerBytes pointer n⟩)
    (hp : pointer < Addr.space) (hn : n < Addr.space) :
    m.header? a = some (UInt32.ofNat pointer, UInt32.ofNat n) := by
  obtain ⟨hpointer, hlength⟩ := h.append
  rw [LittleEndian.length_toBytes] at hlength
  rw [header?, word?_of_holds hpointer hp, word?_of_holds hlength hn]
  rfl

/-- Bytes put out of line are found through their header. -/
theorem read_pointed {bs : Bytes} {a data : Nat} (held : ∀ p ∈ pointed bs a data, m.Holds p)
    (h : data + bs.length < Addr.space) :
    m.header? a = some (UInt32.ofNat data, UInt32.ofNat bs.length) ∧
      m.bytes? (UInt32.ofNat data).toNat (UInt32.ofNat bs.length).toNat = some bs := by
  have hdata := held _ List.mem_cons_self
  have hheader := held _ (List.mem_cons_of_mem _ List.mem_cons_self)
  refine ⟨header?_of_holds hheader (by omega) (by omega), ?_⟩
  rw [Addr.toNat_ofNat_of_lt (by omega), Addr.toNat_ofNat_of_lt (by omega)]
  exact hdata

theorem read_tagged {tag a : Nat} {payload : List Piece}
    (held : ∀ p ∈ tagged tag a payload, m.Holds p) (h : tag < Addr.space) :
    m.word? a = some (UInt32.ofNat tag) ∧ ∀ p ∈ payload, m.Holds p := by
  obtain ⟨htag, hpayload⟩ := List.forall_mem_cons.1 held
  exact ⟨word?_of_holds htag h, hpayload⟩

section Elements

variable {α β : Type} {size : Nat} {outLength : α → Nat} {layout : α → Nat → Nat → List Piece}
  {decode : Nat → Option α} {content : α → β}

theorem length_lt_of_covers (hm : m.limit < Addr.space) (hpos : 0 < size) {xs : List α} {a : Nat}
    (h : m.Covers a (packedLength size outLength xs)) : xs.length < Addr.space := by
  have hlen := length_le_packedLength size outLength hpos xs
  obtain ⟨_, hlimit⟩ := h
  omega

/-- Elements side by side are read back one by one, wherever what they point to lies. That an
element is read back may depend on where it and what it points to end. -/
theorem read_spread_below {last : Nat} (xs : List α)
    (hread : ∀ x ∈ xs, ∀ a data, a + size ≤ last → data + outLength x ≤ last →
      (∀ p ∈ layout x a data, m.Holds p) → m.Covers data (outLength x) →
      ∃ w, decode a = some w ∧ content w = content x)
    (a data : Nat) (ha : a + xs.length * size ≤ last) (hd : data + outLengths outLength xs ≤ last)
    (held : ∀ p ∈ spread size outLength layout xs a data, m.Holds p)
    (hdata : m.Covers data (outLengths outLength xs)) :
    ∃ ws, (List.range xs.length).mapM (fun i => decode (a + i * size)) = some ws ∧
      ws.map content = xs.map content := by
  induction xs generalizing a data with
  | nil => exact ⟨[], rfl, rfl⟩
  | cons x xs ih =>
    obtain ⟨hbase, hlimit⟩ := hdata
    rw [outLengths] at hlimit hd
    rw [List.length_cons, Nat.add_mul, Nat.one_mul] at ha
    obtain ⟨hx, hxs⟩ := List.forall_mem_append.1 held
    obtain ⟨w, hw, hcontent⟩ :=
      hread x List.mem_cons_self a data (by omega) (by omega) hx ⟨hbase, by omega⟩
    obtain ⟨ws, hws, hcontents⟩ :=
      ih (fun y hy => hread y (List.mem_cons_of_mem x hy)) (a + size) (data + outLength x)
        (by omega) (by omega) hxs ⟨by omega, by omega⟩
    have hshift : (fun i => decode (a + i * size)) ∘ Nat.succ =
        fun i => decode (a + size + i * size) := by
      funext i
      rw [Function.comp, Nat.succ_mul, Nat.add_assoc, Nat.add_comm size]
    refine ⟨w :: ws, ?_, by rw [List.map_cons, List.map_cons, hcontent, hcontents]⟩
    rw [List.length_cons, List.range_succ_eq_map, List.mapM_cons, List.mapM_map, hshift, hws]
    rw [Nat.zero_mul, Nat.add_zero, hw]
    rfl

theorem read_spread
    (hread : ∀ x a data, (∀ p ∈ layout x a data, m.Holds p) → m.Covers data (outLength x) →
      ∃ w, decode a = some w ∧ content w = content x)
    (xs : List α) (a data : Nat)
    (held : ∀ p ∈ spread size outLength layout xs a data, m.Holds p)
    (hdata : m.Covers data (outLengths outLength xs)) :
    ∃ ws, (List.range xs.length).mapM (fun i => decode (a + i * size)) = some ws ∧
      ws.map content = xs.map content :=
  read_spread_below xs (fun x _ a data _ _ => hread x a data) a data (Nat.le_max_left ..)
    (Nat.le_max_right ..) held hdata

theorem read_packed
    (hread : ∀ x a data, (∀ p ∈ layout x a data, m.Holds p) → m.Covers data (outLength x) →
      ∃ w, decode a = some w ∧ content w = content x)
    (xs : List α) (data : Nat) (held : ∀ p ∈ packed size outLength layout xs data, m.Holds p)
    (hdata : m.Covers data (packedLength size outLength xs)) :
    ∃ ws, m.elements? size decode data xs.length = some ws ∧ ws.map content = xs.map content := by
  obtain ⟨hbase, hlimit⟩ := hdata
  unfold packedLength at hlimit
  obtain ⟨ws, hws, hcontents⟩ := read_spread hread xs data _ held ⟨by omega, by omega⟩
  refine ⟨ws, ?_, hcontents⟩
  unfold elements?
  by_cases hn : xs.length = 0
  · rw [hn] at hws
    rw [if_pos hn, ← hws]
    rfl
  · rw [if_neg hn, if_pos ⟨hbase, by omega⟩, hws]

end Elements

end Memory

/-- A value whose memory form is in place is decoded with its content. -/
theorem MemType.decodeAt_layout {m : Memory} (hm : m.limit < Addr.space) (t : MemType) (v : t.Val)
    (a data : Nat) (held : ∀ p ∈ t.layout v a data, m.Holds p)
    (hdata : m.Covers data (t.outLength v)) :
    ∃ w, t.decodeAt m a = some w ∧ t.content w = t.content v := by
  induction t generalizing a data with
  | scalar s =>
    have hbytes : m.bytes? a s.width = some (LittleEndian.toBytes s.width (s.toBits v)) := by
      have h := held _ (List.mem_singleton_self _)
      rwa [Memory.Holds, LittleEndian.length_toBytes] at h
    refine ⟨v, ?_, rfl⟩
    rw [decodeAt, hbytes]
    change some (s.ofBits (LittleEndian.ofBytes _)) = _
    rw [LittleEndian.ofBytes_toBytes, Nat.mod_eq_of_lt (s.toBits_lt v), s.ofBits_toBits]
  | bool =>
    have hbytes : m.bytes? a 1 = some [if v then 1 else 0] := held _ (List.mem_singleton_self _)
    refine ⟨v, ?_, rfl⟩
    rw [decodeAt, hbytes]
    cases v <;> rfl
  | string =>
    obtain ⟨hheader, hbytes⟩ := Memory.read_pointed held (Nat.lt_of_le_of_lt hdata.2 hm)
    refine ⟨v, ?_, rfl⟩
    rw [decodeAt, hheader]
    change (m.bytes? _ _).bind text? = _
    rw [hbytes]
    exact text?_encode v
  | blob =>
    obtain ⟨hheader, hbytes⟩ := Memory.read_pointed held (Nat.lt_of_le_of_lt hdata.2 hm)
    refine ⟨v, ?_, rfl⟩
    rw [decodeAt, hheader]
    exact hbytes
  | text =>
    obtain ⟨hheader, hbytes⟩ := Memory.read_pointed held (Nat.lt_of_le_of_lt hdata.2 hm)
    refine ⟨⟨UInt32.ofNat data, v.raw⟩, ?_, rfl⟩
    rw [decodeAt, hheader]
    change ((m.bytes? _ _).bind fun bs => (text? bs).bind _) = _
    rw [hbytes, Option.bind_some, text?_encode]
    rfl
  | bytes =>
    obtain ⟨hheader, hbytes⟩ := Memory.read_pointed held (Nat.lt_of_le_of_lt hdata.2 hm)
    refine ⟨⟨UInt32.ofNat data, v.raw⟩, ?_, rfl⟩
    rw [decodeAt, hheader]
    change (m.bytes? _ _).bind _ = _
    rw [hbytes]
    rfl
  | list t ih =>
    have hend : data + packedLength t.size t.outLength v.raw < Addr.space :=
      Nat.lt_of_le_of_lt hdata.2 hm
    have hn := Memory.length_lt_of_covers hm t.size_pos hdata
    obtain ⟨hpacked, hlast⟩ := List.forall_mem_append.1 held
    have hheader := Memory.header?_of_holds (hlast _ (List.mem_singleton_self _)) (by omega) hn
    obtain ⟨ws, hws, hcontents⟩ := Memory.read_packed ih v.raw data hpacked hdata
    refine ⟨⟨UInt32.ofNat data, ws⟩, ?_, hcontents⟩
    rw [decodeAt, hheader]
    change (m.elements? _ _ (UInt32.ofNat data).toNat (UInt32.ofNat v.raw.length).toNat).bind _ = _
    rw [Addr.toNat_ofNat_of_lt (by omega), Addr.toNat_ofNat_of_lt hn, hws]
    rfl
  | result t e iht ihe =>
    obtain ⟨offset, dataPtr, value⟩ := v
    cases value with
    | ok x =>
      obtain ⟨htag, hpayload⟩ := Memory.read_tagged held (by decide)
      obtain ⟨w, hw, hcontent⟩ := iht x (a + tagSize) data hpayload hdata
      refine ⟨⟨UInt32.ofNat a, 0, .ok w⟩, ?_, congrArg Except.ok hcontent⟩
      rw [decodeAt, htag]
      change (t.decodeAt m (a + tagSize)).bind _ = _
      rw [hw]
      rfl
    | error x =>
      obtain ⟨htag, hpayload⟩ := Memory.read_tagged held (by decide)
      obtain ⟨w, hw, hcontent⟩ := ihe x (a + tagSize) data hpayload hdata
      refine ⟨⟨UInt32.ofNat a, 0, .error w⟩, ?_, congrArg Except.error hcontent⟩
      rw [decodeAt, htag]
      change (e.decodeAt m (a + tagSize)).bind _ = _
      rw [hw]
      rfl

namespace Decoding

variable {α β : Type} {cells rest : List Cell} {a : α}

theorem bind_of_eq_some {steps : Decoding α} {next : α → Decoding β}
    (h : steps cells = some (a, rest)) : (steps >>= next) cells = next a rest := by
  change (steps cells).bind _ = _
  rw [h]
  rfl

theorem liftM_of_eq_some {x : Option α} (h : x = some a) :
    (liftM x : Decoding α) cells = some (a, cells) := by
  rw [h]
  rfl

theorem popWord_cell (a : Addr) : popWord (a.toUInt64 :: cells) = some (a, cells) := by
  change some (a.toUInt64.toUInt32, cells) = _
  rw [UInt32.toUInt32_toUInt64]

theorem popRegion_regionCells (a : Addr) (n : Nat) :
    popRegion ((regionCells a n).reverse ++ cells) = some ((a, UInt32.ofNat n), cells) := by
  change some ((a.toUInt64.toUInt32, (UInt64.ofNat n).toUInt32), cells) = _
  rw [UInt32.toUInt32_toUInt64, UInt64.toUInt32_ofNat']

end Decoding

open Decoding

/-- A value whose pieces are in place is taken back off the stack from its cells. -/
theorem MemType.decode_cells {m : Memory} (hm : m.Addressable) (t : MemType)
    (ht : t.lowerable = true) (v : t.Val) (held : ∀ p ∈ t.pieces v, m.Holds p)
    (hs : ∀ s ∈ t.spans v, m.Covers s.start s.length) (cells : List Cell) :
    ∃ w, t.decode m ((t.cells v).reverse ++ cells) = some (w, cells) ∧
      t.content w = t.content v := by
  cases t with
  | string | blob => contradiction
  | scalar s =>
    refine ⟨v, ?_, rfl⟩
    change some (s.ofCell (s.toCell v), cells) = _
    rw [s.ofCell_toCell]
  | bool =>
    refine ⟨v, ?_, rfl⟩
    cases v <;> rfl
  | text =>
    have hc := hs _ (List.mem_singleton_self _)
    have hend := Nat.lt_of_le_of_lt hc.2 (hm.limit_lt (Addr.toNat_lt_space _) hc)
    have hbytes : m.bytes? v.offset.toNat (UInt32.ofNat (Utf8.encode v.raw.toList).length).toNat =
        some (Utf8.encode v.raw.toList) := by
      rw [Addr.toNat_ofNat_of_lt (by dsimp only at hend; omega)]
      exact held _ (List.mem_singleton_self _)
    refine ⟨v, (bind_of_eq_some (popRegion_regionCells _ _)).trans ?_, rfl⟩
    refine (bind_of_eq_some (liftM_of_eq_some hbytes)).trans ?_
    exact bind_of_eq_some (liftM_of_eq_some (text?_encode v.raw))
  | bytes =>
    have hc := hs _ (List.mem_singleton_self _)
    have hend := Nat.lt_of_le_of_lt hc.2 (hm.limit_lt (Addr.toNat_lt_space _) hc)
    have hbytes : m.bytes? v.offset.toNat (UInt32.ofNat v.raw.length).toNat = some v.raw := by
      rw [Addr.toNat_ofNat_of_lt (by dsimp only at hend; omega)]
      exact held _ (List.mem_singleton_self _)
    refine ⟨v, (bind_of_eq_some (popRegion_regionCells _ _)).trans ?_, rfl⟩
    exact bind_of_eq_some (liftM_of_eq_some hbytes)
  | list t =>
    have hc := hs _ (List.mem_singleton_self _)
    have hlimit := hm.limit_lt (Addr.toNat_lt_space _) hc
    have hn := Memory.length_lt_of_covers hlimit t.size_pos hc
    obtain ⟨ws, hws, hcontents⟩ :=
      Memory.read_packed (t.decodeAt_layout hlimit) v.raw v.offset.toNat held hc
    rw [← Addr.toNat_ofNat_of_lt hn] at hws
    refine ⟨⟨v.offset, ws⟩, (bind_of_eq_some (popRegion_regionCells _ _)).trans ?_, hcontents⟩
    exact bind_of_eq_some (liftM_of_eq_some hws)
  | result t e =>
    have hc := hs _ List.mem_cons_self
    have hdata := hs _ (List.mem_cons_of_mem _ List.mem_cons_self)
    obtain ⟨w, hw, hcontent⟩ :=
      (MemType.result t e).decodeAt_layout (hm.limit_lt (Addr.toNat_lt_space _) hc) v _ _ held hdata
    refine ⟨w, (bind_of_eq_some (popWord_cell _)).trans ?_, hcontent⟩
    exact liftM_of_eq_some hw

namespace HostType

theorem liftable_of_portable (t : HostType) (h : t.portable = true) : t.liftable = true := by
  induction t with
  | counter => contradiction
  | pair l r ihl ihr =>
    obtain ⟨hl, hr⟩ := (Bool.and_eq_true _ _).mp h
    exact (Bool.and_eq_true _ _).mpr ⟨ihl hl, ihr hr⟩
  | _ => rfl

/-- A portable value whose pieces are in place is taken back off the stack from its cells. -/
theorem decode_cells {env : Resources} (hm : env.memory.Addressable) (t : HostType)
    (ht : t.portable = true) (v : t.Val) (hv : t.Lossless v)
    (held : ∀ p ∈ t.pieces v, env.memory.Holds p)
    (hs : ∀ s ∈ t.spans v, env.memory.Covers s.start s.length) (cells : List Cell) :
    ∃ w, t.decode env ((t.cells v).reverse ++ cells) = some (w, cells) ∧
      t.content w = t.content v := by
  induction t generalizing cells with
  | mem t => exact t.decode_cells hm ht v held hs cells
  | intPtr => exact ⟨v, rfl, rfl⟩
  | uintPtr => exact ⟨v, rfl, rfl⟩
  | unit => exact ⟨v, rfl, rfl⟩
  | duration =>
    refine ⟨v, ?_, rfl⟩
    change some (Duration.ofTicks v.ticks, cells) = _
    rw [Duration.ofTicks_ticks hv]
  | time =>
    obtain ⟨s, rfl⟩ := hv
    refine ⟨.ofSeconds s, ?_, rfl⟩
    change some (Timestamp.ofSeconds (Int64.ofInt (Timestamp.ofSeconds s).seconds), cells) = _
    rw [Timestamp.seconds_ofSeconds, Int64.ofInt_toInt]
  | complex64 =>
    refine ⟨v, ?_, rfl⟩
    change some (Complex.mk (Scalar.f32.ofCell (Scalar.f32.toCell v.re))
      (Scalar.f32.ofCell (Scalar.f32.toCell v.im)), cells) = _
    rw [Scalar.ofCell_toCell, Scalar.ofCell_toCell]
  | complex128 =>
    refine ⟨v, ?_, rfl⟩
    change some (Complex.mk (Scalar.f64.ofCell (Scalar.f64.toCell v.re))
      (Scalar.f64.ofCell (Scalar.f64.toCell v.im)), cells) = _
    rw [Scalar.ofCell_toCell, Scalar.ofCell_toCell]
  | indirectList t =>
    have hdata := hs _ List.mem_cons_self
    have hlimit := hm.limit_lt (Addr.toNat_lt_space _) hdata
    have hn := Memory.length_lt_of_covers hlimit t.size_pos hdata
    obtain ⟨hpacked, hlast⟩ := List.forall_mem_append.1 held
    have hheader := Memory.header?_of_holds (hlast _ (List.mem_singleton_self _))
      (Addr.toNat_lt_space _) hn
    rw [UInt32.ofNat_toNat] at hheader
    obtain ⟨ws, hws, hcontents⟩ :=
      Memory.read_packed (t.decodeAt_layout hlimit) v.raw v.dataPtr.toNat hpacked hdata
    rw [← Addr.toNat_ofNat_of_lt hn] at hws
    refine ⟨⟨v.offset, v.dataPtr, ws⟩, (bind_of_eq_some (popWord_cell _)).trans ?_, hcontents⟩
    refine (bind_of_eq_some (liftM_of_eq_some hheader)).trans ?_
    exact bind_of_eq_some (liftM_of_eq_some hws)
  | pair l r ihl ihr =>
    obtain ⟨hl, hr⟩ := (Bool.and_eq_true _ _).mp ht
    obtain ⟨hpl, hpr⟩ := List.forall_mem_append.1 held
    obtain ⟨hsl, hsr⟩ := List.forall_mem_append.1 hs
    -- the cells of the right value lie on top
    obtain ⟨wr, hwr, hright⟩ := ihr hr v.2 hv.2 hpr hsr ((l.cells v.1).reverse ++ cells)
    obtain ⟨wl, hwl, hleft⟩ := ihl hl v.1 hv.1 hpl hsl cells
    have hcells : ((pair l r).cells v).reverse ++ cells =
        (r.cells v.2).reverse ++ ((l.cells v.1).reverse ++ cells) := by
      rw [HostType.cells, List.reverse_append, List.append_assoc]
    refine ⟨(wl, wr), ?_, Prod.ext hleft hright⟩
    rw [hcells]
    refine (bind_of_eq_some hwr).trans ?_
    exact bind_of_eq_some hwl
  | handle | context | counter => contradiction

end HostType

/-- A portable value that is lowered and lifted again comes back with its content, without a fault,
and leaves the stack as it was. The memory may hold anything before; it has to have the regions of
the value, and regions with addresses of their own may not overlap. -/
theorem lift_lower (t : HostType) (ht : t.portable = true) (v : t.Val) (hv : t.Lossless v)
    (fr : Frame) (hf : fr.fault = none) (hm : fr.memory.Addressable)
    (hs : ∀ s ∈ t.spans v, fr.memory.Covers s.start s.length)
    (hd : (t.spans v).Pairwise Span.Disjoint) :
    ((fr.lower t v).lift t).2.fault = none ∧
      ((fr.lower t v).lift t).2.stack = fr.stack ∧
      t.content ((fr.lower t v).lift t).1 = t.content v := by
  have hlower : fr.lower t v =
      { fr with
        memory := fr.memory.put (t.pieces v)
        stack := (t.cells v).reverse ++ fr.stack
        fault := none } := by
    rw [Frame.lower, Frame.giving, t.lower_eq_put ht v hm hs, hf]
    rfl
  let env : Resources := { fr.toResources with memory := fr.memory.put (t.pieces v) }
  have hm' : env.memory.Addressable := hm.put (t.pieces v)
  have hs' := fun s h => (fr.memory.covers_put (t.pieces v) _ _).2 (hs s h)
  have held := Memory.holds_put (t.covers_pieces v hs) (t.disjoint_pieces v hd)
  -- the reference decoder finds what was put in memory, and lifting agrees with it
  obtain ⟨w, hw, hcontent⟩ := t.decode_cells hm' ht v hv held hs' fr.stack
  rw [← t.exact_lift hm' (t.liftable_of_portable ht), Outcome.clean?_eq_some_iff] at hw
  rw [hlower]
  refine ⟨hw.1, congrArg Prod.snd hw.2, ?_⟩
  exact (congrArg (fun r => t.content r.1) hw.2).trans hcontent

/-- A list handed over by one pointer, of results that are texts or words, beside a time. -/
theorem lift_lower_results :
    let t : HostType := .pair (.indirectList (.result .text (.scalar .u16))) .time
    let v : t.Val :=
      (⟨4, 16, [⟨0, 0, .ok ⟨0, "hé"⟩⟩, ⟨0, 0, .error (7 : UInt16)⟩]⟩, .ofSeconds (-1))
    let fr : Frame := .start ⟨.ofBytes (Array.replicate 64 0xff), none, false⟩ [3]
    ((fr.lower t v).lift t).2.fault = none ∧ ((fr.lower t v).lift t).2.stack = [3] ∧
      t.content ((fr.lower t v).lift t).1 = ([.ok "hé", .error (7 : UInt16)], .ofSeconds (-1)) := by
  intro t v fr
  exact lift_lower t rfl v ⟨trivial, -1, rfl⟩ fr rfl (by decide) (by decide) (by decide)

end HostCall
