import HostCall.Proofs.Saturation

/-! Lists that come back whole. Lowering a list checks each of its writes but never its region, so
that no fault was met says only that all bytes in use at their nearest addresses are in the memory.
From there on a list is followed through: its exact region is in the memory if the address space
holds it and if no unused bytes of a result lie at its end, and a list whose region is in the memory
is read back with its content. Where the region passes the end of the address space, elements are
written over each other without a fault. Main statement: `lift_lower_list`. -/

namespace HostCall

namespace Memory

variable {m : Memory} {a b n k : Nat}

/-- The addresses of `s`, if there are any, are in the memory. -/
def HasAll (m : Memory) (s : Span) : Prop := ∀ k, s.Has k → m.base ≤ k ∧ k < m.limit

theorem hasAll_of_covers (h : 0 < n → m.Covers a n) : m.HasAll ⟨a, n⟩ := by
  intro k hk
  obtain ⟨hstart, hend⟩ := hk
  obtain ⟨hbase, hlimit⟩ := h (by dsimp only at hstart hend; omega)
  dsimp only at hstart hend
  omega

theorem covers_of_hasAll (h : m.HasAll ⟨a, n⟩) (hn : 0 < n) : m.Covers a n := by
  have hfirst := h a ⟨Nat.le_refl _, Nat.lt_add_of_pos_right hn⟩
  have hlast := h (a + n - 1) ⟨by dsimp only; omega, by dsimp only; omega⟩
  exact ⟨hfirst.1, by omega⟩

theorem HasAll.append (hn : m.HasAll ⟨a, n⟩) (hk : m.HasAll ⟨a + n, k⟩) :
    m.HasAll ⟨a, n + k⟩ := by
  intro j hj
  obtain ⟨hstart, hend⟩ := hj
  dsimp only at hstart hend
  by_cases h : j < a + n
  · exact hn j ⟨hstart, h⟩
  · exact hk j ⟨by dsimp only; omega, by dsimp only; omega⟩

end Memory

namespace MemType

/-- Types whose values leave no bytes unused in memory: either payload of a result takes all bytes
behind the tag. -/
def dense : MemType → Bool
  | list t => t.dense
  | result t e => t.size == e.size && t.dense && e.dense
  | _ => true

theorem extent_of_dense (t : MemType) (h : t.dense = true) (v : t.Val) : t.extent v = t.size := by
  induction t with
  | result t e iht ihe =>
    obtain ⟨offset, dataPtr, value⟩ := v
    rw [dense, Bool.and_eq_true, Bool.and_eq_true, beq_iff_eq] at h
    obtain ⟨⟨hsize, ht⟩, he⟩ := h
    cases value with
    | ok x =>
      have hx := iht ht x
      simp only [extent, size]
      omega
    | error x =>
      have hx := ihe he x
      simp only [extent, size]
      omega
  | _ => rfl

end MemType

section Elements

variable {α : Type} {size : Nat} {outLength : α → Nat} {layout : α → Nat → Nat → List Piece}

/-- Elements that are in the memory, each with what it points to, fill their region. -/
theorem hasAll_spread {m : Memory}
    (hx : ∀ x a data, (∀ p ∈ layout x a data, m.HasAll p.span) →
      m.HasAll ⟨a, size⟩ ∧ m.HasAll ⟨data, outLength x⟩)
    (xs : List α) (a data : Nat)
    (h : ∀ p ∈ spread size outLength layout xs a data, m.HasAll p.span) :
    m.HasAll ⟨a, xs.length * size⟩ ∧ m.HasAll ⟨data, outLengths outLength xs⟩ := by
  induction xs generalizing a data with
  | nil =>
    rw [List.length_nil, Nat.zero_mul, outLengths]
    exact ⟨Memory.hasAll_of_covers (by omega), Memory.hasAll_of_covers (by omega)⟩
  | cons x xs ih =>
    obtain ⟨hfirst, hrest⟩ := List.forall_mem_append.1 h
    obtain ⟨hown, hout⟩ := hx x a data hfirst
    obtain ⟨howns, houts⟩ := ih (a + size) (data + outLength x) hrest
    rw [List.length_cons, Nat.add_mul, Nat.one_mul, Nat.add_comm]
    exact ⟨hown.append howns, hout.append houts⟩

theorem hasAll_packed {m : Memory}
    (hx : ∀ x a data, (∀ p ∈ layout x a data, m.HasAll p.span) →
      m.HasAll ⟨a, size⟩ ∧ m.HasAll ⟨data, outLength x⟩)
    (xs : List α) (data : Nat) (h : ∀ p ∈ packed size outLength layout xs data, m.HasAll p.span) :
    m.HasAll ⟨data, packedLength size outLength xs⟩ := by
  obtain ⟨howns, houts⟩ := hasAll_spread hx xs data _ h
  exact howns.append houts

end Elements

namespace MemType

/-- The bytes in use at a value's own address are all in its pieces. -/
theorem hasAll_extent {m : Memory} (t : MemType) (v : t.Val) (a data : Nat)
    (h : ∀ p ∈ t.layout v a data, m.HasAll p.span) : m.HasAll ⟨a, t.extent v⟩ := by
  have header {a pointer length : Nat}
      (h : m.HasAll (Piece.mk a (headerBytes pointer length)).span) :
      m.HasAll ⟨a, headerSize⟩ := by
    rwa [Piece.span, length_headerBytes] at h
  induction t generalizing a data with
  | scalar s =>
    have hs := h _ (List.mem_singleton_self _)
    rwa [Piece.span, LittleEndian.length_toBytes] at hs
  | bool => exact h _ (List.mem_singleton_self _)
  | string | blob | text | bytes =>
    exact header (h _ (List.mem_cons_of_mem _ (List.mem_singleton_self _)))
  | list t => exact header (h _ (List.mem_append_right _ (List.mem_singleton_self _)))
  | result t e iht ihe =>
    obtain ⟨offset, dataPtr, value⟩ := v
    cases value with
    | ok x =>
      obtain ⟨htag, hpayload⟩ := List.forall_mem_cons.1 h
      exact Memory.HasAll.append htag (iht x (a + tagSize) data hpayload)
    | error x =>
      obtain ⟨htag, hpayload⟩ := List.forall_mem_cons.1 h
      exact Memory.HasAll.append htag (ihe x (a + tagSize) data hpayload)

/-- What a value of a dense type points to is all in its pieces. -/
theorem hasAll_outLength {m : Memory} (t : MemType) (ht : t.dense = true) (v : t.Val)
    (a data : Nat) (h : ∀ p ∈ t.layout v a data, m.HasAll p.span) :
    m.HasAll ⟨data, t.outLength v⟩ := by
  induction t generalizing a data with
  | scalar | bool => exact Memory.hasAll_of_covers fun h => absurd h (Nat.lt_irrefl 0)
  | string | blob | text | bytes => exact h _ List.mem_cons_self
  | list t ih =>
    obtain ⟨hpacked, -⟩ := List.forall_mem_append.1 h
    refine hasAll_packed (fun x a data hx => ⟨?_, ih ht x a data hx⟩) v.raw data hpacked
    rw [← t.extent_of_dense ht x]
    exact t.hasAll_extent x a data hx
  | result t e iht ihe =>
    rw [dense, Bool.and_eq_true, Bool.and_eq_true] at ht
    obtain ⟨⟨-, hok⟩, herror⟩ := ht
    obtain ⟨offset, dataPtr, value⟩ := v
    cases value with
    | ok x => exact iht hok x (a + tagSize) data (List.forall_mem_cons.1 h).2
    | error x => exact ihe herror x (a + tagSize) data (List.forall_mem_cons.1 h).2

end MemType

namespace Memory

open Outcome

variable {m : Memory}

theorem Covers.nearest (hb : m.base < Addr.space) {a n : Nat} (h : m.Covers a n) :
    m.Covers (Addr.nearest a).toNat n := by
  obtain ⟨hbase, hlimit⟩ := h
  rw [Covers, Addr.toNat_nearest]
  omega

/-- Bytes that end with the address space are also found from the address nearest to theirs: it is
another one only if there are none. -/
theorem Holds.nearest (hb : m.base < Addr.space) {a : Nat} {bs : Bytes} (h : m.Holds ⟨a, bs⟩)
    (hend : a + bs.length ≤ Addr.space) : m.Holds ⟨(Addr.nearest a).toNat, bs⟩ := by
  obtain ⟨hc, hbytes⟩ := holds_iff.1 h
  refine holds_iff.2 ⟨hc.nearest hb, ?_⟩
  intro i hi
  dsimp only at hi ⊢
  rw [Addr.toNat_nearest_of_lt (by omega)]
  exact hbytes i hi

theorem clean?_load_of_holds (hb : m.base < Addr.space) {a : Nat} {bs : Bytes}
    (h : m.Holds ⟨a, bs⟩) (hend : a + bs.length ≤ Addr.space) (hn : bs.length < Addr.space) :
    (m.load (Addr.nearest a) (UInt32.ofNat bs.length)).clean? = some bs := by
  rw [clean?_load, Addr.toNat_ofNat_of_lt hn]
  exact h.nearest hb hend

theorem clean?_loadWord_of_holds {a n : Nat} (h : m.Holds ⟨a, LittleEndian.toBytes 4 n⟩)
    (ha : a < Addr.space) (hn : n < Addr.space) :
    (m.loadWord (Addr.nearest a)).clean? = some (UInt32.ofNat n) := by
  rw [clean?_loadWord, Addr.toNat_nearest_of_lt ha]
  exact word?_of_holds h hn

theorem clean?_loadHeader_of_holds {a n : Nat} {pointer : Addr}
    (h : m.Holds ⟨a, headerBytes pointer.toNat n⟩) (ha : a + headerSize ≤ Addr.space)
    (hn : n < Addr.space) :
    (m.loadHeader (Addr.nearest a)).clean? = some (pointer, UInt32.ofNat n) := by
  obtain ⟨hpointer, hlength⟩ := h.append
  rw [LittleEndian.length_toBytes] at hlength
  unfold headerSize at ha
  rw [loadHeader, Addr.advance_nearest, clean?_bind,
    clean?_loadWord_of_holds hpointer (by omega) pointer.toNat_lt_space, Option.bind_some,
    clean?_bind, clean?_loadWord_of_holds hlength (by omega) hn, UInt32.ofNat_toNat]
  rfl

/-- Bytes put out of line are loaded through their header. -/
theorem clean?_load_pointed (hb : m.base < Addr.space) {bs : Bytes} {a data : Nat}
    (held : ∀ p ∈ pointedNear bs a data, m.Holds p) (ha : a + headerSize ≤ Addr.space)
    (hend : data + bs.length ≤ Addr.space) (hn : bs.length < Addr.space) :
    (m.loadHeader (Addr.nearest a)).clean? =
        some (Addr.nearest data, UInt32.ofNat bs.length) ∧
      (m.load (Addr.nearest data) (UInt32.ofNat bs.length)).clean? = some bs := by
  have hheader := held _ (List.mem_cons_of_mem _ List.mem_cons_self)
  exact ⟨clean?_loadHeader_of_holds hheader ha hn,
    clean?_load_of_holds hb (held _ List.mem_cons_self) hend hn⟩

section Elements

variable {α β : Type} {size : Nat} {outLength : α → Nat} {layout : α → Nat → Nat → List Piece}
  {element : Addr → Outcome α} {content : α → β}

/-- A list whose bytes are in place is loaded, if its region ends with the address space. -/
theorem clean?_loadElements_packed (hpos : 0 < size) (xs : List α)
    (hread : ∀ x ∈ xs, ∀ a data, a + size ≤ Addr.space → data + outLength x ≤ Addr.space →
      outLength x < Addr.space → (∀ p ∈ layout x a data, m.Holds p) →
      m.Covers data (outLength x) →
      ∃ w, (element (Addr.nearest a)).clean? = some w ∧ content w = content x)
    (data : Nat) (held : ∀ p ∈ packed size outLength layout xs data, m.Holds p)
    (hc : m.Covers data (packedLength size outLength xs))
    (hend : data + packedLength size outLength xs ≤ Addr.space)
    (hlength : xs.length * size < Addr.space) :
    ∃ ws, (m.loadElements size element (Addr.nearest data) (UInt32.ofNat xs.length)).clean? =
        some ws ∧ ws.map content = xs.map content := by
  cases hxs : xs with
  | nil => exact ⟨[], rfl, rfl⟩
  | cons y ys =>
    rw [← hxs]
    have hlen : xs.length ≤ xs.length * size := Nat.le_mul_of_pos_right _ hpos
    have hcount : (UInt32.ofNat xs.length).toNat = xs.length := Addr.toNat_ofNat_of_lt (by omega)
    have hne : 0 < xs.length := by
      rw [hxs]
      exact Nat.succ_pos _
    have hout : ∀ x ∈ xs, outLength x < Addr.space := by
      intro x hx
      have hle := size_add_outLength_le size outLength hx
      omega
    obtain ⟨hbase, hlimit⟩ := hc
    unfold packedLength at hlimit hend
    have hdata : (Addr.nearest data).toNat = data := Addr.toNat_nearest_of_lt (by omega)
    obtain ⟨ws, hws, hcontents⟩ := read_spread_below xs
      (fun x hx a data ha hd => hread x hx a data ha hd (hout x hx)) data _ (by omega) (by omega)
      held ⟨by omega, by omega⟩
    refine ⟨ws, ?_, hcontents⟩
    have h0 : UInt32.ofNat xs.length ≠ 0 := by
      intro h
      rw [h] at hcount
      exact absurd hcount (Nat.ne_of_lt hne)
    rw [loadElements_of_covers element h0 (by rw [hdata, hcount]; exact ⟨hbase, by omega⟩)
      (by rw [hdata, hcount]; omega) (by rw [hcount]; exact hlength), hcount, ← hws]
    apply clean?_all_map
    intro i hi
    have hlt : i * size < xs.length * size :=
      Nat.mul_lt_mul_of_pos_right (List.mem_range.1 hi) hpos
    have haddr : Addr.nearest data + UInt32.ofNat (i * size) = Addr.nearest (data + i * size) := by
      apply UInt32.toNat_inj.1
      rw [UInt32.toNat_add, hdata, UInt32.toNat_ofNat', Addr.toNat_nearest_of_lt (by omega)]
      unfold Addr.space at hend
      omega
    rw [haddr]

end Elements

end Memory

open Outcome

/-- A value whose pieces are in place is read back with its content, if nothing of it passes the end
of the address space. -/
theorem MemType.clean?_read_imprint {m : Memory} (hb : m.base < Addr.space) (t : MemType)
    (v : t.Val) (a data : Nat) (held : ∀ p ∈ t.imprint v a data, m.Holds p)
    (ha : a + t.size ≤ Addr.space) (hend : data + t.outLength v ≤ Addr.space)
    (hn : t.outLength v < Addr.space) (hc : m.Covers data (t.outLength v)) :
    ∃ w, (t.read m (Addr.nearest a)).clean? = some w ∧ t.content w = t.content v := by
  induction t generalizing a data with
  | scalar s =>
    have hs := s.width_pos
    have hload := m.clean?_load (Addr.nearest a) (UInt32.ofNat s.width)
    have hbytes := held _ (List.mem_singleton_self _)
    dsimp only [size] at ha
    rw [s.toNat_width, Addr.toNat_nearest_of_lt (by omega)] at hload
    rw [Memory.Holds, LittleEndian.length_toBytes] at hbytes
    refine ⟨v, ?_, rfl⟩
    rw [read, clean?_bind, hload, hbytes]
    change some (s.ofBits (LittleEndian.ofBytes _)) = _
    rw [LittleEndian.ofBytes_toBytes, Nat.mod_eq_of_lt (s.toBits_lt v), s.ofBits_toBits]
  | bool =>
    have hload : (m.load (Addr.nearest a) 1).clean? = some [if v then 1 else 0] :=
      Memory.clean?_load_of_holds hb (held _ (List.mem_singleton_self _)) ha
        (show 1 < Addr.space by decide)
    refine ⟨v, ?_, rfl⟩
    rw [read, clean?_bind, hload]
    cases v <;> rfl
  | string =>
    obtain ⟨hheader, hload⟩ := Memory.clean?_load_pointed hb held ha hend hn
    refine ⟨v, ?_, rfl⟩
    rw [read, clean?_bind, hheader, Option.bind_some]
    simp only [clean?_bind, hload, Option.bind_some, clean?_readText, text?_encode]
  | blob =>
    obtain ⟨hheader, hload⟩ := Memory.clean?_load_pointed hb held ha hend hn
    refine ⟨v, ?_, rfl⟩
    rw [read, clean?_bind, hheader, Option.bind_some]
    exact hload
  | text =>
    obtain ⟨hheader, hload⟩ := Memory.clean?_load_pointed hb held ha hend hn
    refine ⟨⟨Addr.nearest data, v.raw⟩, ?_, rfl⟩
    rw [read, clean?_bind, hheader, Option.bind_some]
    simp only [clean?_bind, hload, Option.bind_some, clean?_readText, text?_encode]
    rfl
  | bytes =>
    obtain ⟨hheader, hload⟩ := Memory.clean?_load_pointed hb held ha hend hn
    refine ⟨⟨Addr.nearest data, v.raw⟩, ?_, rfl⟩
    rw [read, clean?_bind, hheader, Option.bind_some]
    simp only [clean?_bind, hload, Option.bind_some]
    rfl
  | list t ih =>
    have hlength : v.raw.length * t.size < Addr.space :=
      Nat.lt_of_le_of_lt (Nat.le_add_right _ _) hn
    have hcount : v.raw.length < Addr.space :=
      Nat.lt_of_le_of_lt (Nat.le_mul_of_pos_right _ t.size_pos) hlength
    obtain ⟨hpacked, hheader⟩ := List.forall_mem_append.1 held
    have hread := Memory.clean?_loadHeader_of_holds (hheader _ (List.mem_singleton_self _)) ha
      hcount
    obtain ⟨ws, hws, hcontents⟩ := Memory.clean?_loadElements_packed t.size_pos v.raw
      (fun x _ a data ha hend hn held hc => ih x a data held ha hend hn hc) data hpacked hc hend
      hlength
    refine ⟨⟨Addr.nearest data, ws⟩, ?_, hcontents⟩
    rw [read, clean?_bind, hread, Option.bind_some]
    simp only [clean?_bind, hws, Option.bind_some]
    rfl
  | result t e iht ihe =>
    obtain ⟨offset, dataPtr, value⟩ := v
    dsimp only [size, tagSize] at ha
    cases value with
    | ok x =>
      obtain ⟨htag, hpayload⟩ := List.forall_mem_cons.1 held
      have hword := Memory.clean?_loadWord_of_holds htag (by omega) (by decide)
      obtain ⟨w, hw, hcontent⟩ :=
        iht x (a + tagSize) data hpayload (by unfold tagSize; omega) hend hn hc
      refine ⟨⟨Addr.nearest a, 0, .ok w⟩, ?_, congrArg Except.ok hcontent⟩
      rw [read, Addr.advance_nearest, clean?_bind, hword, Option.bind_some]
      change ((t.read m (Addr.nearest (a + tagSize))) >>= _).clean? = _
      rw [clean?_bind, hw]
      rfl
    | error x =>
      obtain ⟨htag, hpayload⟩ := List.forall_mem_cons.1 held
      have hword := Memory.clean?_loadWord_of_holds htag (by omega) (by decide)
      obtain ⟨w, hw, hcontent⟩ :=
        ihe x (a + tagSize) data hpayload (by unfold tagSize; omega) hend hn hc
      refine ⟨⟨Addr.nearest a, 0, .error w⟩, ?_, congrArg Except.error hcontent⟩
      rw [read, Addr.advance_nearest, clean?_bind, hword, Option.bind_some]
      change ((e.read m (Addr.nearest (a + tagSize))) >>= _).clean? = _
      rw [clean?_bind, hw]
      rfl

namespace MemType

open Writing

variable {m : Memory} {t : MemType} {xs : List t.Val} {a : Nat}

theorem spans_packed (t : MemType) (xs : List t.Val) (a : Nat) :
    (packed t.size t.outLength t.imprint xs a).map Piece.span =
      (packed t.size t.outLength t.layout xs a).map Piece.span :=
  spans_spread t.spans_imprint xs a _

theorem inside_packed_imprint (t : MemType) (xs : List t.Val) (a : Nat) :
    ∀ p ∈ packed t.size t.outLength t.imprint xs a,
      p.span.Inside ⟨a, packedLength t.size t.outLength xs⟩ :=
  forall_span (P := fun s => s.Inside ⟨a, packedLength t.size t.outLength xs⟩) (t.spans_packed xs a)
    (inside_packed t.extent_le_size t.inside_layout xs a)

/-- The region of a list that is written without a fault is in the memory, if the address space
holds it and so does the memory, or the type leaves no bytes unused at its end. -/
theorem covers_packed (hxs : xs ≠ [])
    (h : (near (packed t.size t.outLength t.imprint xs a) m).fault = none)
    (hend : m.limit < Addr.space ∨ a + packedLength t.size t.outLength xs ≤ Addr.space)
    (htail : t.dense = true ∨ a + packedLength t.size t.outLength xs ≤ m.limit) :
    m.Covers a (packedLength t.size t.outLength xs) := by
  have himprint : ∀ p ∈ packed t.size t.outLength t.imprint xs a, m.HasAll p.span := by
    intro p hp
    have hin := t.inside_packed_imprint xs a p hp
    refine Memory.hasAll_of_covers fun hpos => ?_
    exact covers_of_nearest hpos (covers_of_near h p hp) (hend.imp_right (Nat.le_trans hin.2))
  have hlayout : ∀ p ∈ packed t.size t.outLength t.layout xs a, m.HasAll p.span :=
    forall_span (t.spans_packed xs a).symm himprint
  obtain ⟨x, ys, rfl⟩ := List.exists_cons_of_ne_nil hxs
  have hfirst := t.hasAll_extent x a _ (List.forall_mem_append.1 hlayout).1
  have hpos := t.extent_pos x
  rcases htail with ht | htail
  · have hall : m.HasAll ⟨a, packedLength t.size t.outLength (x :: ys)⟩ := by
      refine hasAll_packed (fun x a data hx => ⟨?_, t.hasAll_outLength ht x a data hx⟩) _ a hlayout
      rw [← t.extent_of_dense ht x]
      exact t.hasAll_extent x a data hx
    have hlen := length_le_packedLength t.size t.outLength t.size_pos (x :: ys)
    exact Memory.covers_of_hasAll hall (Nat.lt_of_lt_of_le (Nat.succ_pos ys.length) hlen)
  · exact ⟨(Memory.covers_of_hasAll hfirst hpos).1, htail⟩

/-- A list that was written without a fault is read back with its content. -/
theorem clean?_loadElements_near (ha : a < Addr.space)
    (h : (near (packed t.size t.outLength t.imprint xs a) m).fault = none)
    (hend : m.limit < Addr.space ∨
      xs.length * t.size < Addr.space ∧ a + packedLength t.size t.outLength xs ≤ Addr.space)
    (htail : t.dense = true ∨ a + packedLength t.size t.outLength xs ≤ m.limit) :
    let m' := (near (packed t.size t.outLength t.imprint xs a) m).value.2
    ∃ ws, (m'.loadElements t.size (t.read m') (Addr.nearest a) (UInt32.ofNat xs.length)).clean? =
        some ws ∧ ws.map t.content = xs.map t.content := by
  intro m'
  by_cases hxs : xs = []
  · subst hxs
    exact ⟨[], rfl, rfl⟩
  have hc := covers_packed hxs h (hend.imp_right And.right) htail
  have hfit : xs.length * t.size < Addr.space ∧
      a + packedLength t.size t.outLength xs ≤ Addr.space := by
    rcases hend with hlimit | hfit
    · have hle := hc.2
      unfold packedLength at hle ⊢
      omega
    · exact hfit
  have hinside := t.inside_packed_imprint xs a
  have hcovers : ∀ p ∈ packed t.size t.outLength t.imprint xs a,
      m.Covers p.start p.bytes.length := fun p hp => hc.mono (hinside p hp)
  have hput : m' = m.put (packed t.size t.outLength t.imprint xs a) :=
    value_near hcovers fun p hp => Nat.le_trans (hinside p hp).2 hfit.2
  have held := Memory.holds_put hcovers
    (pairwise_span (t.spans_packed xs a)
      (disjoint_packed t.extent_le_size t.inside_layout t.disjoint_layout xs a))
  rw [← hput] at held
  have hb : m'.base < Addr.space := by
    rw [hput, Memory.base_put]
    exact Nat.lt_of_le_of_lt hc.1 ha
  refine Memory.clean?_loadElements_packed t.size_pos xs ?_ a held ?_ hfit.2 hfit.1
  · intro x _ a data ha hend hn held hc
    exact t.clean?_read_imprint hb x a data held ha hend hn hc
  · rw [hput, Memory.covers_put]
    exact hc

theorem clean?_lift_list (a : Addr) (n : Nat) (cells : List Cell) {ws : List t.Val}
    (h : (m.loadElements t.size (t.read m) a (UInt32.ofNat n)).clean? = some ws) :
    ((list t).lift m ((regionCells a n).reverse ++ cells)).clean? = some (⟨a, ws⟩, cells) := by
  have hexact : Lifting.Exact ((list t).lift m) do
      let r ← Decoding.popRegion
      return ⟨r.1, ← (m.loadElements t.size (t.read m) r.1 r.2).clean?⟩ :=
    Lifting.exact_popRegion.bind fun r => (Lifting.exact_outcome rfl).map _
  rw [hexact]
  refine (Decoding.bind_of_eq_some (Decoding.popRegion_regionCells a n)).trans ?_
  exact Decoding.bind_of_eq_some (Decoding.liftM_of_eq_some h)

end MemType

open Writing

/-- A list that is lowered without a fault and lifted again comes back with its content, without a
fault, if its region ends within the address space, its elements do not take all of that, and no
unused bytes of it lie outside the memory. The first two hold in every memory that ends before the
last address; the third for every dense type. -/
theorem lift_lower_list (t : MemType) (v : (MemType.list t).Val) (hv : (MemType.list t).Short v)
    (fr : Frame) (hf : fr.fault = none)
    (hend : fr.memory.limit < Addr.space ∨ v.raw.length * t.size < Addr.space ∧
      v.offset.toNat + packedLength t.size t.outLength v.raw ≤ Addr.space)
    (htail : t.dense = true ∨
      v.offset.toNat + packedLength t.size t.outLength v.raw ≤ fr.memory.limit)
    (h : (fr.lower (.mem (.list t)) v).fault = none) :
    let lifted := (fr.lower (.mem (.list t)) v).lift (.mem (.list t))
    lifted.2.fault = none ∧ lifted.2.stack = fr.stack ∧
      (MemType.list t).content lifted.1 = (MemType.list t).content v := by
  obtain ⟨hn, hxs⟩ := hv
  obtain ⟨taken, -, helements⟩ := takes_elements t.size v.raw hn
    (fun x hx => t.takes_write x (hxs x hx)) v.offset.toNat
  rw [Addr.nearest_toNat] at helements
  let o := near (packed t.size t.outLength t.imprint v.raw v.offset.toNat) fr.memory
  have hlist : (MemType.list t).lower v fr.memory =
      ⟨(regionCells v.offset v.raw.length, o.value.2), o.fault⟩ := by
    rw [MemType.lower, helements]
    exact Outcome.ext rfl (Option.or_none.trans Option.or_none)
  have hlower : fr.lower (.mem (.list t)) v =
      { fr with
        memory := o.value.2
        stack := (regionCells v.offset v.raw.length).reverse ++ fr.stack
        fault := o.fault } := by
    unfold Frame.lower Frame.giving
    rw [HostType.lower, Lowering.onMemory, hlist, hf]
    exact congrArg _ Option.or_none
  have hfault : o.fault = none := by
    rw [hlower] at h
    exact h
  obtain ⟨ws, hws, hcontents⟩ := MemType.clean?_loadElements_near
    (Addr.toNat_lt_space v.offset) hfault hend htail
  rw [Addr.nearest_toNat] at hws
  have hlift := MemType.clean?_lift_list v.offset v.raw.length fr.stack hws
  rw [Outcome.clean?_eq_some_iff] at hlift
  rw [hlower, hfault]
  refine ⟨hlift.1, congrArg Prod.snd hlift.2, ?_⟩
  have hraw := congrArg (fun r => (MemType.list t).content r.1) hlift.2
  exact hraw.trans hcontents

/-- A list that ends with the address space, where its last text, which is empty, lies. -/
theorem lift_lower_list_texts :
    let t : MemType := .list .text
    let v : t.Val := ⟨0xffffffe0, [⟨0, "0123456789abcdef"⟩, ⟨0, ""⟩]⟩
    let fr : Frame := .start ⟨⟨0xffffffe0, Array.replicate 32 0xff, Addr.space⟩, none, false⟩ [3]
    let lifted := (fr.lower (.mem t) v).lift (.mem t)
    (fr.lower (.mem t) v).fault = none ∧ lifted.2.fault = none ∧ lifted.2.stack = [3] ∧
      t.content lifted.1 = ["0123456789abcdef", ""] := by
  have hclean : ((Frame.start ⟨⟨0xffffffe0, Array.replicate 32 0xff, Addr.space⟩, none, false⟩
      [3]).lower (.mem (.list .text)) ⟨0xffffffe0, [⟨0, "0123456789abcdef"⟩, ⟨0, ""⟩]⟩).fault =
        none := rfl
  intro t v fr lifted
  exact ⟨hclean, lift_lower_list .text v (by decide) fr rfl (by decide) (.inl rfl) hclean⟩

/-- Two texts that pass the end of the address space: the second is written over the last byte of
the first, and no fault tells. -/
theorem list_written_over_itself :
    let t : MemType := .list .string
    let v : t.Val := ⟨0xffffffee, ["ab", "cd"]⟩
    let fr : Frame := .start ⟨⟨0xffffffee, Array.replicate 24 0, Addr.space + 6⟩, none, false⟩ []
    let lifted := (fr.lower (.mem t) v).lift (.mem t)
    t.Short v ∧ (fr.lower (.mem t) v).fault = none ∧ lifted.2.fault = none ∧
      t.content lifted.1 = ["ac", "cd"] ∧ t.content lifted.1 ≠ t.content v :=
  ⟨by decide, rfl, rfl, rfl, by decide⟩

/-- Unused bytes of a result past the end of the memory are not missed before the list is lifted. -/
example :
    let t : MemType := .list (.result (.scalar .u8) .string)
    let v : t.Val := ⟨8, [⟨0, 0, .ok (5 : UInt8)⟩]⟩
    let fr : Frame := .start ⟨.ofBytes (Array.replicate 16 0), none, false⟩ []
    (fr.lower (.mem t) v).fault = none ∧
      ((fr.lower (.mem t) v).lift (.mem t)).2.fault = some (.readOutOfBounds 8 12 16) := ⟨rfl, rfl⟩

end HostCall
