import HostCall.Proofs.Placement

/-! What writing a value leaves in memory, byte for byte. An image is a run of bytes with gaps where
memory stays as it was. A value has one for its own address and one for what it points to, both
functions of the value and of the address that it points to. Where the two places lie in the memory
and apart from each other, writing the value lays its images over the memory, and nothing else
changes. -/

namespace HostCall

/-- Bytes side by side, `none` where memory is left as it was. -/
abbrev Image := List (Option UInt8)

namespace Image

variable {i j : Image} {a b k : Nat} {below : Nat → Option UInt8}

/-- An image without gaps. -/
def solid (bs : Bytes) : Image := bs.map some

/-- `image` with a gap behind it, `n` bytes in all. -/
def padded (n : Nat) (image : Image) : Image := image ++ List.replicate (n - image.length) none

/-- The bytes seen at each address once `image` lies at `a` over the bytes `below`. -/
def laid (image : Image) (a : Nat) (below : Nat → Option UInt8) (k : Nat) : Option UInt8 :=
  if a ≤ k then image[k - a]?.join.or (below k) else below k

@[simp] theorem length_solid (bs : Bytes) : (solid bs).length = bs.length := List.length_map ..

theorem laid_outside (h : ¬Span.Has ⟨a, i.length⟩ k) : laid i a below k = below k := by
  unfold laid
  by_cases ha : a ≤ k
  · have hk : ¬k < a + i.length := fun hk => h ⟨ha, hk⟩
    rw [if_pos ha, List.getElem?_eq_none (by omega)]
    rfl
  · exact if_neg ha

theorem laid_congr {below' : Nat → Option UInt8} (h : below k = below' k) :
    laid i a below k = laid i a below' k := by
  unfold laid
  rw [h]

@[simp] theorem laid_nil : laid [] a below = below :=
  funext fun _ => laid_outside fun h => Nat.not_lt.2 h.1 h.2

@[simp] theorem laid_gap (n : Nat) : laid (List.replicate n none) a below = below := by
  funext k
  unfold laid
  rw [List.getElem?_replicate]
  split
  · split <;> rfl
  · rfl

theorem laid_append : laid (i ++ j) a below = laid i a (laid j (a + i.length) below) := by
  funext k
  by_cases hk : k < a + i.length
  · have hj : laid j (a + i.length) below k = below k :=
      laid_outside fun h => Nat.not_le.2 hk h.1
    rw [laid_congr hj]
    unfold laid
    by_cases ha : a ≤ k
    · rw [if_pos ha, if_pos ha, List.getElem?_append_left (by omega)]
    · rw [if_neg ha, if_neg ha]
  · rw [laid_outside (i := i) fun h => hk h.2]
    unfold laid
    rw [if_pos (by omega), if_pos (by omega), List.getElem?_append_right (by omega)]
    congr 3
    omega

@[simp] theorem laid_padded (n : Nat) : laid (padded n i) a below = laid i a below := by
  rw [padded, laid_append, laid_gap]

/-- Images that lie apart may be laid in either order. -/
theorem laid_comm (h : Span.Disjoint ⟨a, i.length⟩ ⟨b, j.length⟩) :
    laid i a (laid j b below) = laid j b (laid i a below) := by
  funext k
  by_cases hi : Span.Has ⟨a, i.length⟩ k
  · rw [laid_congr (laid_outside (h k hi)), laid_outside (h k hi)]
  · rw [laid_outside hi, laid_congr (laid_outside hi)]

end Image

open Image

section Elements

variable {α : Type} (size : Nat) (outLength : α → Nat) (image own out : α → Nat → Image)

/-- Where what the `i`-th element points to starts, if the elements start at `data`: behind all
elements and behind what the earlier ones point to. -/
def outStart (xs : List α) (data i : Nat) : Nat :=
  data + xs.length * size + outLengths outLength (xs.take i)

/-- The images of all elements side by side. -/
def sideBySide (xs : List α) (data : Nat) : Image :=
  xs.zipIdx.flatMap fun x => image x.1 (outStart size outLength xs data x.2)

/-- The bytes of a list: its elements, and right behind them what they point to. -/
def packedImage (xs : List α) (data : Nat) : Image :=
  sideBySide size outLength own xs data ++ sideBySide size outLength out xs data

/-- The images of elements in turn, where what they point to starts at `data`. -/
def inTurn : List α → (data : Nat) → Image
  | [], _ => []
  | x :: xs, data => image x data ++ inTurn xs (data + outLength x)

theorem sideBySide_eq (xs : List α) (data : Nat) :
    sideBySide size outLength image xs data =
      inTurn outLength image xs (data + xs.length * size) := by
  have shifted (xs : List α) (d : Nat) :
      (xs.zipIdx.flatMap fun x => image x.1 (d + outLengths outLength (xs.take x.2))) =
        inTurn outLength image xs d := by
    induction xs generalizing d with
    | nil => rfl
    | cons x xs ih =>
      rw [List.zipIdx_cons', List.flatMap_cons, List.flatMap_map, inTurn, ← ih]
      simp only [Prod.map, id, List.take_succ_cons, List.take_zero, outLengths, Nat.add_zero,
        Nat.add_assoc]
  exact shifted xs _

theorem length_inTurn {length : α → Nat} (h : ∀ x data, (image x data).length = length x)
    (xs : List α) (data : Nat) :
    (inTurn outLength image xs data).length = outLengths length xs := by
  induction xs generalizing data with
  | nil => rfl
  | cons x xs ih => rw [inTurn, List.length_append, h, ih, outLengths]

theorem outLengths_const (xs : List α) : outLengths (fun _ => size) xs = xs.length * size := by
  induction xs with
  | nil => rw [outLengths, List.length_nil, Nat.zero_mul]
  | cons x xs ih => rw [outLengths, ih, List.length_cons, Nat.add_mul, Nat.one_mul, Nat.add_comm]

end Elements

namespace MemType

/-- The bytes at a value's own address, where `data` is the address of what it points to. Of a
result the tag and the payload that is there. -/
def ownImage : (t : MemType) → t.Val → (data : Nat) → Image
  | scalar s, v, _ => solid (LittleEndian.toBytes s.width (s.toBits v))
  | bool, v, _ => solid [if v then 1 else 0]
  | string, v, data => solid (headerBytes data (Utf8.encode v.toList).length)
  | blob, v, data => solid (headerBytes data v.length)
  | text, v, data => solid (headerBytes data (Utf8.encode v.raw.toList).length)
  | bytes, v, data => solid (headerBytes data v.raw.length)
  | list _, v, data => solid (headerBytes data v.raw.length)
  | result t e, v, data =>
    padded (result t e).size <|
      match v.value with
      | .ok x => solid (LittleEndian.toBytes tagSize 0) ++ t.ownImage x data
      | .error x => solid (LittleEndian.toBytes tagSize 1) ++ e.ownImage x data

/-- The bytes that a value points to, where `data` is the address of the first of them. -/
def outImage : (t : MemType) → t.Val → (data : Nat) → Image
  | scalar _, _, _ | bool, _, _ => []
  | string, v, _ => solid (Utf8.encode v.toList)
  | blob, v, _ => solid v
  | text, v, _ => solid (Utf8.encode v.raw.toList)
  | bytes, v, _ => solid v.raw
  | list t, v, data => packedImage t.size t.outLength t.ownImage t.outImage v.raw data
  | result t e, v, data =>
    match v.value with
    | .ok x => t.outImage x data
    | .error x => e.outImage x data

@[simp] theorem length_ownImage (t : MemType) (v : t.Val) (data : Nat) :
    (t.ownImage v data).length = t.size := by
  induction t with
  | scalar s => rw [ownImage, length_solid, LittleEndian.length_toBytes, size]
  | bool => rfl
  | string | blob | text | bytes | list => rw [ownImage, length_solid, length_headerBytes, size]
  | result t e iht ihe =>
    obtain ⟨offset, dataPtr, value⟩ := v
    rw [ownImage, padded, List.length_append, List.length_replicate]
    cases value with
    | ok x =>
      dsimp only
      rw [List.length_append, length_solid, LittleEndian.length_toBytes, iht x, size]
      omega
    | error x =>
      dsimp only
      rw [List.length_append, length_solid, LittleEndian.length_toBytes, ihe x, size]
      omega

@[simp] theorem length_outImage (t : MemType) (v : t.Val) (data : Nat) :
    (t.outImage v data).length = t.outLength v := by
  induction t generalizing data with
  | scalar | bool => rfl
  | string | blob | text | bytes => exact length_solid _
  | list t ih =>
    rw [outImage, packedImage, List.length_append, sideBySide_eq, sideBySide_eq,
      length_inTurn _ _ t.length_ownImage, length_inTurn _ _ ih, outLengths_const]
    rfl
  | result t e iht ihe =>
    obtain ⟨offset, dataPtr, value⟩ := v
    cases value with
    | ok x => exact iht x data
    | error x => exact ihe x data

end MemType

namespace Memory

variable {m : Memory} {a data : Nat}

theorem byte?_splice_solid {bs : Bytes} (h : m.Covers a bs.length) :
    (m.splice a bs).byte? = laid (solid bs) a m.byte? := by
  funext k
  rw [byte?_splice m h.1 h.2]
  by_cases hk : a ≤ k ∧ k < a + bs.length
  · have hi : k - a < bs.length := by omega
    rw [if_pos hk, laid, if_pos hk.1, solid, List.getElem?_map, List.getElem?_eq_getElem hi]
    rfl
  · rw [if_neg hk, laid_outside (by rwa [length_solid])]

theorem put_append (m : Memory) (ps qs : List Piece) : m.put (ps ++ qs) = (m.put ps).put qs :=
  List.foldl_append

section Elements

variable {α : Type} {size : Nat} {outLength : α → Nat} {layout : α → Nat → Nat → List Piece}
  {own out : α → Nat → Image}

theorem byte?_put_spread (hown : ∀ x data, (own x data).length = size)
    (hout : ∀ x data, (out x data).length = outLength x)
    (hput : ∀ (x : α) (a data : Nat) (m : Memory), m.Covers a size → m.Covers data (outLength x) →
      Span.Disjoint ⟨a, size⟩ ⟨data, outLength x⟩ →
      (m.put (layout x a data)).byte? = laid (own x data) a (laid (out x data) data m.byte?))
    (xs : List α) (a data : Nat) (m : Memory) (ha : m.Covers a (xs.length * size))
    (hdata : m.Covers data (outLengths outLength xs)) (hbehind : a + xs.length * size ≤ data) :
    (m.put (spread size outLength layout xs a data)).byte? =
      laid (inTurn outLength own xs data) a (laid (inTurn outLength out xs data) data m.byte?) := by
  induction xs generalizing a data m with
  | nil =>
    rw [inTurn, inTurn, laid_nil, laid_nil]
    rfl
  | cons x xs ih =>
    obtain ⟨hbase, hlimit⟩ := ha
    obtain ⟨hbase', hlimit'⟩ := hdata
    rw [List.length_cons, Nat.add_mul, Nat.one_mul] at hlimit hbehind
    rw [outLengths] at hlimit'
    have hx := hput x a data m ⟨hbase, by omega⟩ ⟨hbase', by omega⟩
      (Span.disjoint_iff.2 (by dsimp only; omega))
    have hxs := ih (a + size) (data + outLength x) (m.put (layout x a data))
      ((covers_put ..).2 ⟨by omega, by omega⟩) ((covers_put ..).2 ⟨by omega, by omega⟩) (by omega)
    have hlen := length_inTurn outLength own hown xs (data + outLength x)
    have hlen' := length_inTurn outLength out hout xs (data + outLength x)
    rw [outLengths_const] at hlen
    rw [spread, put_append, hxs, hx, inTurn, inTurn, laid_append, laid_append, hown, hout]
    -- the first element goes in front of the others, and so does what it points to
    rw [laid_comm (i := inTurn outLength out xs _) (j := own x data),
      laid_comm (i := inTurn outLength own xs _) (j := own x data),
      laid_comm (i := inTurn outLength out xs _) (j := out x data)]
    all_goals
      refine Span.disjoint_iff.2 ?_
      simp only [hlen, hlen', hown, hout]
      omega

theorem byte?_put_packed (hown : ∀ x data, (own x data).length = size)
    (hout : ∀ x data, (out x data).length = outLength x)
    (hput : ∀ (x : α) (a data : Nat) (m : Memory), m.Covers a size → m.Covers data (outLength x) →
      Span.Disjoint ⟨a, size⟩ ⟨data, outLength x⟩ →
      (m.put (layout x a data)).byte? = laid (own x data) a (laid (out x data) data m.byte?))
    (xs : List α) (h : m.Covers data (packedLength size outLength xs)) :
    (m.put (packed size outLength layout xs data)).byte? =
      laid (packedImage size outLength own out xs data) data m.byte? := by
  obtain ⟨hbase, hlimit⟩ := h
  unfold packedLength at hlimit
  have hspread := byte?_put_spread hown hout hput xs data (data + xs.length * size) m
    ⟨hbase, by omega⟩ ⟨by omega, by omega⟩ (Nat.le_refl _)
  have hlen := length_inTurn outLength own hown xs (data + xs.length * size)
  rw [outLengths_const] at hlen
  rw [packed, hspread, packedImage, sideBySide_eq, sideBySide_eq, laid_append, hlen]

end Elements

theorem byte?_put_pointed {bs : Bytes} (ha : m.Covers a headerSize) (hd : m.Covers data bs.length) :
    (m.put (pointed bs a data)).byte? =
      laid (solid (headerBytes data bs.length)) a (laid (solid bs) data m.byte?) := by
  have hheader : (m.splice data bs).Covers a (headerBytes data bs.length).length := by
    rw [length_headerBytes]
    exact (covers_splice ..).2 ha
  change ((m.splice data bs).splice a _).byte? = _
  rw [byte?_splice_solid hheader, byte?_splice_solid hd]

theorem byte?_put_tagged (tag : Nat) {size n l : Nat} {payload : List Piece} {own out : Image}
    (hown : own.length = n) (hout : out.length = l) (hsize : tagSize + n ≤ size)
    (ha : m.Covers a size) (hd : m.Covers data l) (hapart : Span.Disjoint ⟨a, size⟩ ⟨data, l⟩)
    (h : ∀ m' : Memory, m'.Covers (a + tagSize) n → m'.Covers data l →
      Span.Disjoint ⟨a + tagSize, n⟩ ⟨data, l⟩ →
      (m'.put payload).byte? = laid own (a + tagSize) (laid out data m'.byte?)) :
    (m.put (tagged tag a payload)).byte? =
      laid (padded size (solid (LittleEndian.toBytes tagSize tag) ++ own)) a
        (laid out data m.byte?) := by
  have hlen : (solid (LittleEndian.toBytes tagSize tag)).length = tagSize := by
    rw [length_solid, LittleEndian.length_toBytes]
  have htag : Span.Inside ⟨a, tagSize⟩ ⟨a, size⟩ := ⟨Nat.le_refl _, by dsimp only; omega⟩
  have hpayload : Span.Inside ⟨a + tagSize, n⟩ ⟨a, size⟩ :=
    ⟨Nat.le_add_right _ _, by dsimp only; omega⟩
  have hdata : Span.Inside ⟨data, l⟩ ⟨data, l⟩ := ⟨Nat.le_refl _, Nat.le_refl _⟩
  have hcover : m.Covers a (LittleEndian.toBytes tagSize tag).length := by
    rw [LittleEndian.length_toBytes]
    exact ha.mono htag
  have hput := h (m.splice a (LittleEndian.toBytes tagSize tag))
    ((covers_splice ..).2 (ha.mono hpayload)) ((covers_splice ..).2 hd)
    (hapart.mono hpayload hdata)
  change ((m.splice a (LittleEndian.toBytes tagSize tag)).put payload).byte? = _
  rw [hput, byte?_splice_solid hcover, laid_padded, laid_append, hlen]
  -- the tag was written first, but it lies apart from all that came after it
  rw [laid_comm (i := out), laid_comm (i := own)]
  · rw [hlen]
    exact Span.disjoint_iff.2 (by dsimp only; omega)
  · rw [hlen, hout]
    exact (hapart.mono htag hdata).symm

end Memory

open Memory

/-- Putting the pieces of a memory form in place lays its images over the memory. -/
theorem MemType.byte?_put_layout (t : MemType) (v : t.Val) (a data : Nat) (m : Memory)
    (ha : m.Covers a t.size) (hd : m.Covers data (t.outLength v))
    (hapart : Span.Disjoint ⟨a, t.size⟩ ⟨data, t.outLength v⟩) :
    (m.put (t.layout v a data)).byte? =
      laid (t.ownImage v data) a (laid (t.outImage v data) data m.byte?) := by
  induction t generalizing a data m with
  | scalar s =>
    have hs : m.Covers a (LittleEndian.toBytes s.width (s.toBits v)).length := by
      rwa [LittleEndian.length_toBytes]
    rw [ownImage, outImage, laid_nil, ← byte?_splice_solid hs]
    rfl
  | bool =>
    rw [ownImage, outImage, laid_nil, ← byte?_splice_solid ha]
    rfl
  | string => exact byte?_put_pointed ha hd
  | blob => exact byte?_put_pointed ha hd
  | text => exact byte?_put_pointed ha hd
  | bytes => exact byte?_put_pointed ha hd
  | list t ih =>
    have hheader : (m.put (packed t.size t.outLength t.layout v.raw data)).Covers a
        (headerBytes data v.raw.length).length := by
      rw [length_headerBytes]
      exact (covers_put ..).2 ha
    rw [layout, put_append]
    change (Memory.splice _ a _).byte? = _
    rw [byte?_splice_solid hheader,
      byte?_put_packed t.length_ownImage t.length_outImage ih v.raw hd]
    rfl
  | result t e iht ihe =>
    obtain ⟨offset, dataPtr, value⟩ := v
    cases value with
    | ok x =>
      exact byte?_put_tagged 0 (t.length_ownImage x data) (t.length_outImage x data)
        (Nat.add_le_add_left (Nat.le_max_left ..) _) ha hd hapart (iht x _ data)
    | error x =>
      exact byte?_put_tagged 1 (e.length_ownImage x data) (e.length_outImage x data)
        (Nat.add_le_add_left (Nat.le_max_right ..) _) ha hd hapart (ihe x _ data)

/-- In a memory that has both places of a value, writing it only puts its pieces there. -/
theorem MemType.write_eq_put (t : MemType) (v : t.Val) (a data : Addr) {m : Memory}
    (hm : m.Addressable) (ha : m.Covers a.toNat t.size) (hd : m.Covers data.toNat (t.outLength v)) :
    t.write v a data m =
      pure (UInt32.ofNat (t.outLength v), m.put (t.layout v a.toNat data.toNat)) := by
  have hlimit := hm.limit_lt a.toNat_lt_space ha
  have hextent := t.extent_le_size v
  have hplace : ∀ p ∈ t.layout v a.toNat data.toNat, m.Covers p.start p.bytes.length := by
    intro p hp
    rcases t.inside_layout v _ _ p hp with h | h
    · exact ha.mono (t := ⟨a.toNat, t.size⟩) (h.trans ⟨Nat.le_refl _, by dsimp only; omega⟩)
    · exact hd.mono h
  have hpieces := Writing.pieces_eq_put hplace fun p hp => by
    have := (hplace p hp).2
    omega
  rw [t.write_eq_pieces v a data (by have := ha.2; omega) (by have := hd.2; omega)]
  change (Writing.pieces _ m >>= fun r => pure (_, r.2)) = _
  rw [hpieces]
  rfl

/-- Writing a value where it fits meets no fault and lays its two images over the memory: the one of
its own bytes at `a`, the one of the bytes it points to at `data`. It returns the length of the
latter. -/
theorem writeValue_images (t : MemType) (v : t.Val) (a data : Addr) (fr : Frame)
    (hf : fr.fault = none) (hm : fr.memory.Addressable) (ha : fr.memory.Covers a.toNat t.size)
    (hd : fr.memory.Covers data.toNat (t.outImage v data.toNat).length)
    (hapart : Span.Disjoint ⟨a.toNat, t.size⟩ ⟨data.toNat, (t.outImage v data.toNat).length⟩) :
    let written := fr.writeValue t v a data
    written.2.fault = none ∧
      written.1.toNat = (t.outImage v data.toNat).length ∧
      written.2.memory.byte? =
        laid (t.ownImage v data.toNat) a.toNat
          (laid (t.outImage v data.toNat) data.toNat fr.memory.byte?) ∧
      (∀ k, ¬Span.Has ⟨a.toNat, t.size⟩ k → ¬Span.Has ⟨data.toNat, written.1.toNat⟩ k →
        written.2.memory.byte? k = fr.memory.byte? k) ∧
      written.2 = { fr with memory := written.2.memory } := by
  rw [t.length_outImage] at hd hapart ⊢
  have hwritten : fr.writeValue t v a data =
      (UInt32.ofNat (t.outLength v),
        { fr with memory := fr.memory.put (t.layout v a.toNat data.toNat), fault := none }) := by
    rw [Frame.writeValue, Frame.giving, Lowering.onMemory, t.write_eq_put v a data hm ha hd, hf]
    rfl
  have hcount : (UInt32.ofNat (t.outLength v)).toNat = t.outLength v :=
    Addr.toNat_ofNat_of_lt (Nat.lt_of_le_of_lt (Nat.le_trans (Nat.le_add_left ..) hd.2)
      (hm.limit_lt data.toNat_lt_space hd))
  have hbytes := t.byte?_put_layout v a.toNat data.toNat fr.memory ha hd hapart
  intro written
  rw [show written = _ from hwritten]
  refine ⟨rfl, hcount, hbytes, ?_, by rw [hf]⟩
  intro k hown hout
  dsimp only at hout ⊢
  rw [hcount, ← t.length_outImage v data.toNat] at hout
  rw [← t.length_ownImage v data.toNat] at hown
  rw [hbytes, laid_outside hown, laid_outside hout]

/-- Two results at 16, a word with a gap behind it and a text whose bytes follow both. -/
theorem writeValue_images_results :
    let t : MemType := .list (.result .string (.scalar .u16))
    let v : t.Val := ⟨0, [⟨0, 0, .error (7 : UInt16)⟩, ⟨0, 0, .ok "hé"⟩]⟩
    let fr : Frame := .start ⟨.ofBytes (Array.replicate 64 0xff), none, false⟩ []
    let written := fr.writeValue t v 4 16
    written.2.fault = none ∧ written.1.toNat = 27 ∧
      (List.range 27).map (fun i => written.2.memory.byte? (16 + i)) =
        [1, 0, 0, 0, 7, 0, 0xff, 0xff, 0xff, 0xff, 0xff, 0xff,
          0, 0, 0, 0, 40, 0, 0, 0, 3, 0, 0, 0, 0x68, 0xc3, 0xa9].map some := by
  intro t v fr written
  obtain ⟨hfault, hcount, hbytes, -, -⟩ :=
    writeValue_images t v 4 16 fr rfl (by decide) (by decide) (by decide) (by decide)
  refine ⟨hfault, hcount.trans (by decide), ?_⟩
  rw [hbytes]
  decide

end HostCall
