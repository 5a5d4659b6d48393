import HostCall.Proofs.Reference

/-! Where the parts of a value go. The memory form of a value is a list of pieces, each some bytes
at an unbounded address: its own part lies within `extent` bytes at its own address and what it
points to within `outLength` bytes from a second address on. The parts of a value lie apart where
these two regions do. Main statements: `MemType.inside_layout`, `MemType.disjoint_layout`. -/

namespace HostCall

/-- `length` addresses from `start` on. -/
structure Span where
  start : Nat
  length : Nat

namespace Span

def Has (s : Span) (k : Nat) : Prop := s.start ≤ k ∧ k < s.start + s.length

def Disjoint (s t : Span) : Prop := ∀ k, s.Has k → ¬t.Has k

/-- Also said of an empty span: it starts in `t` or at its end. -/
def Inside (s t : Span) : Prop := t.start ≤ s.start ∧ s.start + s.length ≤ t.start + t.length

variable {s s' t t' u : Span}

theorem disjoint_iff : s.Disjoint t ↔
    s.length = 0 ∨ t.length = 0 ∨ s.start + s.length ≤ t.start ∨ t.start + t.length ≤ s.start := by
  constructor
  · intro h
    have hs := h s.start
    have ht := h t.start
    unfold Has at hs ht
    omega
  · intro h k hs ht
    unfold Has at hs ht
    omega

instance (s t : Span) : Decidable (s.Disjoint t) := decidable_of_iff _ disjoint_iff.symm

theorem Disjoint.symm (h : s.Disjoint t) : t.Disjoint s := fun k ht hs => h k hs ht

theorem Inside.trans (h : s.Inside t) (h' : t.Inside u) : s.Inside u :=
  ⟨Nat.le_trans h'.1 h.1, Nat.le_trans h.2 h'.2⟩

theorem Inside.has (h : s.Inside t) {k : Nat} (hk : s.Has k) : t.Has k :=
  ⟨Nat.le_trans h.1 hk.1, Nat.lt_of_lt_of_le hk.2 h.2⟩

theorem Disjoint.mono (h : s'.Disjoint t') (hs : s.Inside s') (ht : t.Inside t') : s.Disjoint t :=
  fun k hk hk' => h k (hs.has hk) (ht.has hk')

end Span

theorem Memory.Covers.mono {m : Memory} {s t : Span} (h : m.Covers t.start t.length)
    (hs : s.Inside t) : m.Covers s.start s.length :=
  ⟨Nat.le_trans h.1 hs.1, Nat.le_trans hs.2 h.2⟩

/-- Bytes and the address that they lie at. -/
structure Piece where
  start : Nat
  bytes : Bytes

def Piece.span (p : Piece) : Span := ⟨p.start, p.bytes.length⟩

/-- A pointer and a length in memory. -/
def headerBytes (pointer length : Nat) : Bytes :=
  LittleEndian.toBytes 4 pointer ++ LittleEndian.toBytes 4 length

@[simp] theorem length_headerBytes (pointer length : Nat) :
    (headerBytes pointer length).length = headerSize := by
  rw [headerBytes, List.length_append, LittleEndian.length_toBytes, LittleEndian.length_toBytes]
  rfl

/-- Bytes from `data` on and a header for them at `a`. -/
def pointed (bs : Bytes) (a data : Nat) : List Piece :=
  [⟨data, bs⟩, ⟨a, headerBytes data bs.length⟩]

/-- A tag at `a` and a payload behind it. -/
def tagged (tag a : Nat) (payload : List Piece) : List Piece :=
  ⟨a, LittleEndian.toBytes 4 tag⟩ :: payload

section Elements

variable {α : Type} (size : Nat) (outLength : α → Nat) (layout : α → Nat → Nat → List Piece)

/-- Elements side by side from `a` on, what they point to one after the other from `data` on. -/
def spread : List α → (a data : Nat) → List Piece
  | [], _, _ => []
  | x :: xs, a, data => layout x a data ++ spread xs (a + size) (data + outLength x)

/-- The number of bytes that elements point to. -/
def outLengths : List α → Nat
  | [] => 0
  | x :: xs => outLength x + outLengths xs

/-- All bytes of a list: its elements and right behind them what they point to. -/
def packed (xs : List α) (data : Nat) : List Piece :=
  spread size outLength layout xs data (data + xs.length * size)

def packedLength (xs : List α) : Nat := xs.length * size + outLengths outLength xs

theorem length_le_packedLength (hpos : 0 < size) (xs : List α) :
    xs.length ≤ packedLength size outLength xs :=
  Nat.le_trans (Nat.le_mul_of_pos_right _ hpos) (Nat.le_add_right _ _)

theorem size_add_outLength_le {x : α} {xs : List α} (hx : x ∈ xs) :
    size + outLength x ≤ packedLength size outLength xs := by
  unfold packedLength
  induction xs with
  | nil => contradiction
  | cons y ys ih =>
    rw [outLengths, List.length_cons, Nat.add_mul, Nat.one_mul]
    rcases List.mem_cons.1 hx with rfl | hx
    · omega
    · have := ih hx
      omega

end Elements

namespace MemType

/-- The number of bytes that a value points to. -/
def outLength : (t : MemType) → t.Val → Nat
  | scalar _, _ | bool, _ => 0
  | string, v => (Utf8.encode v.toList).length
  | blob, v => v.length
  | text, v => (Utf8.encode v.raw.toList).length
  | bytes, v => v.raw.length
  | list t, v => packedLength t.size t.outLength v.raw
  | result t e, v =>
    match v.value with
    | .ok x => t.outLength x
    | .error x => e.outLength x

/-- The number of bytes in use at a value's own address: of a result the tag and the payload that
is there. -/
def extent : (t : MemType) → t.Val → Nat
  | result t e, v =>
    match v.value with
    | .ok x => tagSize + t.extent x
    | .error x => tagSize + e.extent x
  | t, _ => t.size

/-- The memory form of a value at `a` with what it points to from `data` on. -/
def layout : (t : MemType) → t.Val → (a data : Nat) → List Piece
  | scalar s, v, a, _ => [⟨a, LittleEndian.toBytes s.width (s.toBits v)⟩]
  | bool, v, a, _ => [⟨a, [if v then 1 else 0]⟩]
  | string, v, a, data => pointed (Utf8.encode v.toList) a data
  | blob, v, a, data => pointed v a data
  | text, v, a, data => pointed (Utf8.encode v.raw.toList) a data
  | bytes, v, a, data => pointed v.raw a data
  | list t, v, a, data =>
    packed t.size t.outLength t.layout v.raw data ++ [⟨a, headerBytes data v.raw.length⟩]
  | result t e, v, a, data =>
    match v.value with
    | .ok x => tagged 0 a (t.layout x (a + tagSize) data)
    | .error x => tagged 1 a (e.layout x (a + tagSize) data)

theorem extent_le_size (t : MemType) (v : t.Val) : t.extent v ≤ t.size := by
  induction t with
  | result t e iht ihe =>
    obtain ⟨offset, dataPtr, value⟩ := v
    cases value with
    | ok x =>
      have hx := iht x
      simp only [extent, size]
      omega
    | error x =>
      have hx := ihe x
      simp only [extent, size]
      omega
  | _ => exact Nat.le_refl _

theorem extent_pos (t : MemType) (v : t.Val) : 0 < t.extent v := by
  cases t with
  | result t e =>
    obtain ⟨offset, dataPtr, value⟩ := v
    cases value <;> exact Nat.add_pos_left (by decide) _
  | _ => exact size_pos _

end MemType

section Elements

variable {α : Type} {size : Nat} {outLength : α → Nat} {layout : α → Nat → Nat → List Piece}
  {extent : α → Nat}

theorem inside_spread (hsize : ∀ x, extent x ≤ size)
    (hx : ∀ x a data, ∀ p ∈ layout x a data,
      p.span.Inside ⟨a, extent x⟩ ∨ p.span.Inside ⟨data, outLength x⟩)
    (xs : List α) (a data : Nat) : ∀ p ∈ spread size outLength layout xs a data,
      p.span.Inside ⟨a, xs.length * size⟩ ∨ p.span.Inside ⟨data, outLengths outLength xs⟩ := by
  induction xs generalizing a data with
  | nil =>
    intro p hp
    contradiction
  | cons x xs ih =>
    intro p hp
    have hs := hsize x
    have hlen : (x :: xs).length * size = size + xs.length * size := by
      rw [List.length_cons, Nat.add_mul, Nat.one_mul, Nat.add_comm]
    rw [hlen, outLengths]
    rcases List.mem_append.1 hp with hp | hp
    · rcases hx x a data p hp with h | h
      · exact .inl (h.trans ⟨Nat.le_refl _, by dsimp only; omega⟩)
      · exact .inr (h.trans ⟨Nat.le_refl _, by dsimp only; omega⟩)
    · rcases ih _ _ p hp with h | h
      · exact .inl (h.trans ⟨Nat.le_add_right _ _, by dsimp only; omega⟩)
      · exact .inr (h.trans ⟨Nat.le_add_right _ _, by dsimp only; omega⟩)

theorem inside_packed (hsize : ∀ x, extent x ≤ size)
    (hx : ∀ x a data, ∀ p ∈ layout x a data,
      p.span.Inside ⟨a, extent x⟩ ∨ p.span.Inside ⟨data, outLength x⟩)
    (xs : List α) (data : Nat) : ∀ p ∈ packed size outLength layout xs data,
      p.span.Inside ⟨data, packedLength size outLength xs⟩ := by
  intro p hp
  unfold packedLength
  rcases inside_spread hsize hx xs _ _ p hp with h | h
  · exact h.trans ⟨Nat.le_refl _, by dsimp only; omega⟩
  · exact h.trans ⟨Nat.le_add_right _ _, by dsimp only; omega⟩

/-- Elements and what they point to do not get in each other's way. -/
theorem disjoint_spread (hsize : ∀ x, extent x ≤ size)
    (hx : ∀ x a data, ∀ p ∈ layout x a data,
      p.span.Inside ⟨a, extent x⟩ ∨ p.span.Inside ⟨data, outLength x⟩)
    (hd : ∀ x a data, Span.Disjoint ⟨a, extent x⟩ ⟨data, outLength x⟩ →
      (layout x a data).Pairwise fun p q => p.span.Disjoint q.span)
    (xs : List α) (a data : Nat) (hbehind : a + xs.length * size ≤ data) :
    (spread size outLength layout xs a data).Pairwise fun p q => p.span.Disjoint q.span := by
  induction xs generalizing a data with
  | nil => exact .nil
  | cons x xs ih =>
    have hs := hsize x
    rw [List.length_cons, Nat.add_mul, Nat.one_mul] at hbehind
    refine List.pairwise_append.2 ⟨hd x a data ?_, ih _ _ (by omega), ?_⟩
    · exact Span.disjoint_iff.2 (by dsimp only; omega)
    · intro p hp q hq
      have hrest := inside_spread hsize hx xs (a + size) (data + outLength x) q hq
      rcases hx x a data p hp with h | h <;> rcases hrest with h' | h'
      all_goals
        refine Span.Disjoint.mono (Span.disjoint_iff.2 ?_) h h'
        dsimp only
        omega

theorem disjoint_packed (hsize : ∀ x, extent x ≤ size)
    (hx : ∀ x a data, ∀ p ∈ layout x a data,
      p.span.Inside ⟨a, extent x⟩ ∨ p.span.Inside ⟨data, outLength x⟩)
    (hd : ∀ x a data, Span.Disjoint ⟨a, extent x⟩ ⟨data, outLength x⟩ →
      (layout x a data).Pairwise fun p q => p.span.Disjoint q.span)
    (xs : List α) (data : Nat) :
    (packed size outLength layout xs data).Pairwise fun p q => p.span.Disjoint q.span :=
  disjoint_spread hsize hx hd xs data _ (Nat.le_refl _)

end Elements

section Parts

variable {a data : Nat}

theorem inside_header (pointer length : Nat) :
    (Piece.mk a (headerBytes pointer length)).span.Inside ⟨a, headerSize⟩ := by
  refine ⟨Nat.le_refl _, Nat.le_of_eq ?_⟩
  rw [Piece.span, length_headerBytes]

theorem inside_pointed (bs : Bytes) : ∀ p ∈ pointed bs a data,
    p.span.Inside ⟨a, headerSize⟩ ∨ p.span.Inside ⟨data, bs.length⟩ := by
  intro p hp
  rcases List.mem_cons.1 hp with rfl | hp
  · exact .inr ⟨Nat.le_refl _, Nat.le_refl _⟩
  · obtain rfl := List.mem_singleton.1 hp
    exact .inl (inside_header data bs.length)

theorem disjoint_pointed (bs : Bytes) (h : Span.Disjoint ⟨a, headerSize⟩ ⟨data, bs.length⟩) :
    (pointed bs a data).Pairwise fun p q => p.span.Disjoint q.span := by
  refine List.pairwise_pair.2 (h.symm.mono ⟨Nat.le_refl _, Nat.le_refl _⟩ ?_)
  exact inside_header data bs.length

variable {ps : List Piece} {used out : Nat}

theorem inside_tagged (tag : Nat)
    (h : ∀ p ∈ ps, p.span.Inside ⟨a + tagSize, used⟩ ∨ p.span.Inside ⟨data, out⟩) :
    ∀ p ∈ tagged tag a ps, p.span.Inside ⟨a, tagSize + used⟩ ∨ p.span.Inside ⟨data, out⟩ := by
  intro p hp
  rcases List.mem_cons.1 hp with rfl | hp
  · exact .inl ⟨Nat.le_refl _, Nat.add_le_add_left (Nat.le_add_right _ _) _⟩
  · rcases h p hp with hi | hi
    · exact .inl (hi.trans ⟨Nat.le_add_right _ _, Nat.le_of_eq (Nat.add_assoc ..)⟩)
    · exact .inr hi

theorem disjoint_tagged (tag : Nat) (hd : Span.Disjoint ⟨a, tagSize + used⟩ ⟨data, out⟩)
    (hi : ∀ p ∈ ps, p.span.Inside ⟨a + tagSize, used⟩ ∨ p.span.Inside ⟨data, out⟩)
    (h : ps.Pairwise fun p q => p.span.Disjoint q.span) :
    (tagged tag a ps).Pairwise fun p q => p.span.Disjoint q.span := by
  refine List.pairwise_cons.2 ⟨?_, h⟩
  intro p hp
  have htag : (Piece.mk a (LittleEndian.toBytes 4 tag)).span.Inside ⟨a, tagSize⟩ :=
    ⟨Nat.le_refl _, Nat.le_refl _⟩
  rcases hi p hp with hp | hp
  · exact (Span.disjoint_iff.2 (by dsimp only; omega)).mono htag hp
  · exact hd.mono (htag.trans ⟨Nat.le_refl _, by dsimp only; omega⟩) hp

end Parts

namespace MemType

/-- Every piece of a memory form lies within the bytes in use at the value's own address or within
the bytes that the value points to. -/
theorem inside_layout (t : MemType) (v : t.Val) (a data : Nat) : ∀ p ∈ t.layout v a data,
    p.span.Inside ⟨a, t.extent v⟩ ∨ p.span.Inside ⟨data, t.outLength v⟩ := by
  induction t generalizing a data with
  | scalar s =>
    intro p hp
    obtain rfl := List.mem_singleton.1 hp
    refine .inl ⟨Nat.le_refl _, Nat.le_of_eq ?_⟩
    rw [Piece.span, LittleEndian.length_toBytes]
    rfl
  | bool =>
    intro p hp
    obtain rfl := List.mem_singleton.1 hp
    exact .inl ⟨Nat.le_refl _, Nat.le_refl _⟩
  | string => exact inside_pointed _
  | blob => exact inside_pointed _
  | text => exact inside_pointed _
  | bytes => exact inside_pointed _
  | list t ih =>
    intro p hp
    rcases List.mem_append.1 hp with hp | hp
    · exact .inr (inside_packed t.extent_le_size ih v.raw data p hp)
    · obtain rfl := List.mem_singleton.1 hp
      exact .inl (inside_header data v.raw.length)
  | result t e iht ihe =>
    obtain ⟨offset, dataPtr, value⟩ := v
    cases value with
    | ok x => exact inside_tagged 0 (iht x (a + tagSize) data)
    | error x => exact inside_tagged 1 (ihe x (a + tagSize) data)

/-- The pieces of a memory form lie apart where the bytes in use at the value's own address and
those it points to do. -/
theorem disjoint_layout (t : MemType) (v : t.Val) (a data : Nat)
    (h : Span.Disjoint ⟨a, t.extent v⟩ ⟨data, t.outLength v⟩) :
    (t.layout v a data).Pairwise fun p q => p.span.Disjoint q.span := by
  induction t generalizing a data with
  | scalar s => exact List.pairwise_singleton _ _
  | bool => exact List.pairwise_singleton _ _
  | string => exact disjoint_pointed _ h
  | blob => exact disjoint_pointed _ h
  | text => exact disjoint_pointed _ h
  | bytes => exact disjoint_pointed _ h
  | list t ih =>
    have hin := inside_packed t.extent_le_size t.inside_layout v.raw data
    refine List.pairwise_append.2 ⟨?_, List.pairwise_singleton _ _, ?_⟩
    · exact disjoint_packed t.extent_le_size t.inside_layout ih v.raw data
    · intro p hp q hq
      obtain rfl := List.mem_singleton.1 hq
      exact h.symm.mono (hin p hp) (inside_header data v.raw.length)
  | result t e iht ihe =>
    obtain ⟨offset, dataPtr, value⟩ := v
    cases value with
    | ok x =>
      refine disjoint_tagged 0 h (t.inside_layout x _ data) (iht x _ data ?_)
      exact h.mono ⟨Nat.le_add_right _ _, Nat.le_of_eq (Nat.add_assoc ..)⟩
        ⟨Nat.le_refl _, Nat.le_refl _⟩
    | error x =>
      refine disjoint_tagged 1 h (e.inside_layout x _ data) (ihe x _ data ?_)
      exact h.mono ⟨Nat.le_add_right _ _, Nat.le_of_eq (Nat.add_assoc ..)⟩
        ⟨Nat.le_refl _, Nat.le_refl _⟩

/-- The regions in memory of a value that is pushed. -/
def spans : (t : MemType) → t.Val → List Span
  | scalar _, _ | bool, _ | string, _ | blob, _ => []
  | text, v => [⟨v.offset.toNat, (Utf8.encode v.raw.toList).length⟩]
  | bytes, v => [⟨v.offset.toNat, v.raw.length⟩]
  | list t, v => [⟨v.offset.toNat, packedLength t.size t.outLength v.raw⟩]
  | result t e, v =>
    [⟨v.offset.toNat, (result t e).extent v⟩, ⟨v.dataPtr.toNat, (result t e).outLength v⟩]

theorem start_lt_of_mem_spans (t : MemType) (v : t.Val) :
    ∀ s ∈ t.spans v, s.start < Addr.space := by
  intro s hs
  cases t with
  | scalar | bool | string | blob => contradiction
  | text | bytes | list =>
    obtain rfl := List.mem_singleton.1 hs
    exact Addr.toNat_lt_space _
  | result t e =>
    rcases List.mem_cons.1 hs with rfl | hs
    · exact Addr.toNat_lt_space _
    · obtain rfl := List.mem_singleton.1 hs
      exact Addr.toNat_lt_space _

/-- The pieces of a value that is pushed. -/
def pieces : (t : MemType) → t.Val → List Piece
  | scalar _, _ | bool, _ | string, _ | blob, _ => []
  | text, v => [⟨v.offset.toNat, Utf8.encode v.raw.toList⟩]
  | bytes, v => [⟨v.offset.toNat, v.raw⟩]
  | list t, v => packed t.size t.outLength t.layout v.raw v.offset.toNat
  | result t e, v => (result t e).layout v v.offset.toNat v.dataPtr.toNat

theorem inside_pieces (t : MemType) (v : t.Val) :
    ∀ p ∈ t.pieces v, ∃ s ∈ t.spans v, p.span.Inside s := by
  intro p hp
  cases t with
  | scalar | bool | string | blob => contradiction
  | text | bytes =>
    obtain rfl := List.mem_singleton.1 hp
    exact ⟨_, List.mem_singleton_self _, Nat.le_refl _, Nat.le_refl _⟩
  | list t =>
    exact ⟨_, List.mem_singleton_self _, inside_packed t.extent_le_size t.inside_layout _ _ p hp⟩
  | result t e =>
    rcases inside_layout _ v _ _ p hp with h | h
    · exact ⟨_, List.mem_cons_self, h⟩
    · exact ⟨_, List.mem_cons_of_mem _ List.mem_cons_self, h⟩

theorem disjoint_pieces (t : MemType) (v : t.Val) (h : (t.spans v).Pairwise Span.Disjoint) :
    (t.pieces v).Pairwise fun p q => p.span.Disjoint q.span := by
  cases t with
  | scalar | bool | string | blob => exact .nil
  | text | bytes => exact List.pairwise_singleton _ _
  | list t => exact disjoint_packed t.extent_le_size t.inside_layout t.disjoint_layout _ _
  | result t e => exact disjoint_layout _ v _ _ (List.pairwise_pair.1 h)

end MemType

namespace HostType

/-- The regions in memory of a value that is pushed: one for each address that it is given. -/
def spans : (t : HostType) → t.Val → List Span
  | mem t, v => t.spans v
  | indirectList t, v =>
    [⟨v.dataPtr.toNat, packedLength t.size t.outLength v.raw⟩, ⟨v.offset.toNat, headerSize⟩]
  | pair l r, v => l.spans v.1 ++ r.spans v.2
  | _, _ => []

theorem start_lt_of_mem_spans (t : HostType) (v : t.Val) :
    ∀ s ∈ t.spans v, s.start < Addr.space := by
  intro s hs
  induction t with
  | mem t => exact t.start_lt_of_mem_spans v s hs
  | indirectList t =>
    rcases List.mem_cons.1 hs with rfl | hs
    · exact Addr.toNat_lt_space _
    · obtain rfl := List.mem_singleton.1 hs
      exact Addr.toNat_lt_space _
  | pair l r ihl ihr =>
    rcases List.mem_append.1 hs with hs | hs
    · exact ihl v.1 hs
    · exact ihr v.2 hs
  | _ => contradiction

/-- The pieces of a value that is pushed. -/
def pieces : (t : HostType) → t.Val → List Piece
  | mem t, v => t.pieces v
  | indirectList t, v =>
    packed t.size t.outLength t.layout v.raw v.dataPtr.toNat ++
      [⟨v.offset.toNat, headerBytes v.dataPtr.toNat v.raw.length⟩]
  | pair l r, v => l.pieces v.1 ++ r.pieces v.2
  | _, _ => []

theorem inside_pieces (t : HostType) (v : t.Val) :
    ∀ p ∈ t.pieces v, ∃ s ∈ t.spans v, p.span.Inside s := by
  induction t with
  | mem t => exact t.inside_pieces v
  | indirectList t =>
    intro p hp
    rcases List.mem_append.1 hp with hp | hp
    · exact ⟨_, List.mem_cons_self, inside_packed t.extent_le_size t.inside_layout _ _ p hp⟩
    · obtain rfl := List.mem_singleton.1 hp
      exact ⟨_, List.mem_cons_of_mem _ List.mem_cons_self, inside_header _ _⟩
  | pair l r ihl ihr =>
    intro p hp
    rcases List.mem_append.1 hp with hp | hp
    · obtain ⟨s, hs, hi⟩ := ihl v.1 p hp
      exact ⟨s, List.mem_append_left _ hs, hi⟩
    · obtain ⟨s, hs, hi⟩ := ihr v.2 p hp
      exact ⟨s, List.mem_append_right _ hs, hi⟩
  | _ =>
    intro p hp
    contradiction

/-- The pieces of a value are in the memory where its regions are. -/
theorem covers_pieces {m : Memory} (t : HostType) (v : t.Val)
    (hs : ∀ s ∈ t.spans v, m.Covers s.start s.length) :
    ∀ p ∈ t.pieces v, m.Covers p.start p.bytes.length := by
  intro p hp
  obtain ⟨s, h, hin⟩ := t.inside_pieces v p hp
  exact (hs s h).mono hin

/-- They lie apart where the regions do. -/
theorem disjoint_pieces (t : HostType) (v : t.Val) (h : (t.spans v).Pairwise Span.Disjoint) :
    (t.pieces v).Pairwise fun p q => p.span.Disjoint q.span := by
  induction t with
  | mem t => exact t.disjoint_pieces v h
  | indirectList t =>
    refine List.pairwise_append.2 ⟨?_, List.pairwise_singleton _ _, ?_⟩
    · exact disjoint_packed t.extent_le_size t.inside_layout t.disjoint_layout _ _
    · intro p hp q hq
      obtain rfl := List.mem_singleton.1 hq
      exact (List.pairwise_pair.1 h).mono
        (inside_packed t.extent_le_size t.inside_layout _ _ p hp) (inside_header _ _)
  | pair l r ihl ihr =>
    obtain ⟨hl, hr, hlr⟩ := List.pairwise_append.1 h
    refine List.pairwise_append.2 ⟨ihl v.1 hl, ihr v.2 hr, ?_⟩
    intro p hp q hq
    obtain ⟨s, hs, hps⟩ := l.inside_pieces v.1 p hp
    obtain ⟨s', hs', hqs⟩ := r.inside_pieces v.2 q hq
    exact (hlr s hs s' hs').mono hps hqs
  | _ => exact .nil

end HostType

end HostCall
