import HostCall.Proofs.RoundTrip

/-! Writing at addresses that may have saturated. Whatever the memory, a value is written piece by
piece at the addresses nearest to their exact ones, as long as each length in it is a 32-bit number.
A piece that meets no fault is in its exact place, if the memory or the piece ends within the
address space: then either the address is exact, or the piece is empty, or it is out of bounds.
Main statements: `MemType.takes_write`, `Writing.covers_of_near`. -/

namespace HostCall

/-- Bytes from `data` on and a header for them at `a`, which points to the address nearest to
`data`. -/
def pointedNear (bs : Bytes) (a data : Nat) : List Piece :=
  [⟨data, bs⟩, ⟨a, headerBytes (Addr.nearest data).toNat bs.length⟩]

namespace MemType

/-- Each length in a value is a 32-bit number. -/
def Short : (t : MemType) → t.Val → Prop
  | scalar _, _ | bool, _ => True
  | string, v => (Utf8.encode v.toList).length < Addr.space
  | blob, v => v.length < Addr.space
  | text, v => (Utf8.encode v.raw.toList).length < Addr.space
  | bytes, v => v.raw.length < Addr.space
  | list t, v => v.raw.length < Addr.space ∧ ∀ x ∈ v.raw, t.Short x
  | result t e, v =>
    match v.value with
    | .ok x => t.Short x
    | .error x => e.Short x

instance decidableShort : (t : MemType) → (v : t.Val) → Decidable (t.Short v)
  | scalar _, _ | bool, _ => inferInstanceAs (Decidable True)
  | string, _ | blob, _ | text, _ | bytes, _ => inferInstanceAs (Decidable (_ < _))
  | list t, v =>
    have := t.decidableShort
    inferInstanceAs (Decidable (v.raw.length < Addr.space ∧ ∀ x ∈ v.raw, t.Short x))
  | result t _, ⟨_, _, .ok x⟩ => t.decidableShort x
  | result _ e, ⟨_, _, .error x⟩ => e.decidableShort x

/-- The pieces of the memory form, with pointers to the nearest addresses. -/
def imprint : (t : MemType) → t.Val → (a data : Nat) → List Piece
  | scalar s, v, a, _ => [⟨a, LittleEndian.toBytes s.width (s.toBits v)⟩]
  | bool, v, a, _ => [⟨a, [if v then 1 else 0]⟩]
  | string, v, a, data => pointedNear (Utf8.encode v.toList) a data
  | blob, v, a, data => pointedNear v a data
  | text, v, a, data => pointedNear (Utf8.encode v.raw.toList) a data
  | bytes, v, a, data => pointedNear v.raw a data
  | list t, v, a, data =>
    packed t.size t.outLength t.imprint v.raw data ++
      [⟨a, headerBytes (Addr.nearest data).toNat v.raw.length⟩]
  | result t e, v, a, data =>
    match v.value with
    | .ok x => tagged 0 a (t.imprint x (a + tagSize) data)
    | .error x => tagged 1 a (e.imprint x (a + tagSize) data)

end MemType

theorem spans_spread {α : Type} {size : Nat} {outLength : α → Nat}
    {layout layout' : α → Nat → Nat → List Piece}
    (h : ∀ x a data, (layout x a data).map Piece.span = (layout' x a data).map Piece.span)
    (xs : List α) (a data : Nat) :
    (spread size outLength layout xs a data).map Piece.span =
      (spread size outLength layout' xs a data).map Piece.span := by
  induction xs generalizing a data with
  | nil => rfl
  | cons x xs ih => rw [spread, spread, List.map_append, List.map_append, h, ih]

/-- The pieces lie where those of the exact memory form do. -/
theorem MemType.spans_imprint (t : MemType) (v : t.Val) (a data : Nat) :
    (t.imprint v a data).map Piece.span = (t.layout v a data).map Piece.span := by
  have pointed (bs : Bytes) (a data : Nat) :
      (pointedNear bs a data).map Piece.span = (pointed bs a data).map Piece.span := by
    simp [pointedNear, HostCall.pointed, Piece.span]
  induction t generalizing a data with
  | scalar | bool => rfl
  | string => exact pointed _ a data
  | blob => exact pointed _ a data
  | text => exact pointed _ a data
  | bytes => exact pointed _ a data
  | list t ih =>
    rw [imprint, layout, List.map_append, List.map_append]
    congr 1
    exact spans_spread ih v.raw data _
  | result t e iht ihe =>
    obtain ⟨offset, dataPtr, value⟩ := v
    cases value with
    | ok x => exact congrArg (_ :: ·) (iht x (a + tagSize) data)
    | error x => exact congrArg (_ :: ·) (ihe x (a + tagSize) data)

theorem forall_span {ps qs : List Piece} (h : ps.map Piece.span = qs.map Piece.span)
    {P : Span → Prop} (hq : ∀ q ∈ qs, P q.span) : ∀ p ∈ ps, P p.span := by
  rw [← List.forall_mem_map] at hq ⊢
  rwa [h]

theorem pairwise_span {ps qs : List Piece} (h : ps.map Piece.span = qs.map Piece.span)
    (hq : qs.Pairwise fun p q => p.span.Disjoint q.span) :
    ps.Pairwise fun p q => p.span.Disjoint q.span := by
  rw [← List.pairwise_map] at hq ⊢
  rwa [h]

namespace Writing

/-- Writes pieces one after the other, each at the address nearest to its own. -/
def near : List Piece → Writing Unit
  | [] => pure ()
  | p :: ps => do
    Writing.bytes (Addr.nearest p.start) p.bytes
    near ps

theorem near_append (ps qs : List Piece) : near (ps ++ qs) = near ps >>= fun _ => near qs := by
  induction ps with
  | nil => exact (pure_bind _ _).symm
  | cons p ps ih => simp only [List.cons_append, near, ih, bind_assoc]

theorem near_singleton (a : Nat) (bs : Bytes) :
    near [⟨a, bs⟩] = Writing.bytes (Addr.nearest a) bs := bind_pure _

theorem header_eq_near (a : Nat) (pointer : Addr) {n : Nat} (hn : n < Addr.space) :
    header (Addr.nearest a) pointer (UInt32.ofNat n) =
      near [⟨a, headerBytes pointer.toNat n⟩] := by
  rw [near_singleton, header]
  simp only [Memory.wordBytes, headerBytes, Addr.toNat_ofNat_of_lt hn]

/-- `w` writes `ps`, and what it returns leads from the address nearest to `data` to the one
nearest to `data + n`. -/
def Takes (w : Writing UInt32) (ps : List Piece) (data n : Nat) : Prop :=
  ∃ taken : UInt32,
    (Addr.nearest data).advance taken.toNat = Addr.nearest (data + n) ∧
    w = do
      near ps
      return taken

theorem takes_outOfLine (bs : Bytes) (a data : Nat) (h : bs.length < Addr.space) :
    Takes (outOfLine (Addr.nearest a) (Addr.nearest data) bs) (pointedNear bs a data) data
      bs.length := by
  refine ⟨UInt32.ofNat bs.length, ?_, ?_⟩
  · rw [Addr.toNat_ofNat_of_lt h, Addr.advance_nearest]
  · have hsplit : pointedNear bs a data =
        [⟨data, bs⟩] ++ [⟨a, headerBytes (Addr.nearest data).toNat bs.length⟩] := rfl
    rw [hsplit, near_append, near_singleton, ← header_eq_near a _ h, bind_assoc]
    rfl

theorem Takes.tagged {w : Writing UInt32} {ps : List Piece} {data n : Nat} (tag : UInt32) (a : Nat)
    (h : Takes w ps data n) :
    Takes (do
      word (Addr.nearest a) tag
      w) (tagged tag.toNat a ps) data n := by
  obtain ⟨taken, hnext, rfl⟩ := h
  exact ⟨taken, hnext, (bind_assoc ..).symm⟩

section Elements

variable {α : Type} (size : Nat) {outLength : α → Nat} {layout : α → Nat → Nat → List Piece}
  {write : α → Addr → Addr → Writing UInt32}

theorem each_element_eq_near (xs : List α)
    (hwrite : ∀ x ∈ xs, ∀ a data : Nat,
      Takes (write x (Addr.nearest a) (Addr.nearest data)) (layout x a data) data (outLength x))
    (a data : Nat) :
    each (element size write) (Addr.nearest a, Addr.nearest data) xs = do
      near (spread size outLength layout xs a data)
      return (Addr.nearest (a + xs.length * size),
        Addr.nearest (data + outLengths outLength xs)) := by
  induction xs generalizing a data with
  | nil =>
    rw [List.length_nil, Nat.zero_mul]
    rfl
  | cons x xs ih =>
    obtain ⟨taken, hnext, hx⟩ := hwrite x List.mem_cons_self a data
    have hrest := ih (fun y hy => hwrite y (List.mem_cons_of_mem x hy)) (a + size)
      (data + outLength x)
    have hend : a + (xs.length + 1) * size = a + size + xs.length * size := by
      rw [Nat.add_mul, Nat.one_mul]
      omega
    rw [each_cons, element, hx]
    simp only [bind_assoc, pure_bind, hnext, spread, near_append]
    rw [Addr.advance_nearest, hrest, List.length_cons, hend, outLengths, Nat.add_assoc data]

theorem takes_elements (xs : List α) (hn : xs.length < Addr.space)
    (hwrite : ∀ x ∈ xs, ∀ a data : Nat,
      Takes (write x (Addr.nearest a) (Addr.nearest data)) (layout x a data) data (outLength x))
    (data : Nat) :
    Takes (elements size write xs (Addr.nearest data)) (packed size outLength layout xs data) data
      (packedLength size outLength xs) := by
  have heach := each_element_eq_near size xs hwrite data (data + xs.length * size)
  refine ⟨Addr.nearest (data + packedLength size outLength xs) - Addr.nearest data, ?_, ?_⟩
  · apply UInt32.toNat_inj.1
    have hle : (Addr.nearest data).toNat ≤
        (Addr.nearest (data + packedLength size outLength xs)).toNat := by
      rw [Addr.toNat_nearest, Addr.toNat_nearest]
      omega
    rw [Addr.toNat_advance, UInt32.toNat_sub_of_le _ _ hle]
    simp only [Addr.toNat_nearest] at hle ⊢
    omega
  · rw [elements, Addr.toNat_ofNat_of_lt hn, Addr.advance_nearest, heach, packedLength,
      ← Nat.add_assoc]
    simp only [bind_assoc, pure_bind]
    rfl

end Elements

end Writing

open Writing

/-- Wherever a value is written, it is written piece by piece at the nearest addresses. -/
theorem MemType.takes_write (t : MemType) (v : t.Val) (hv : t.Short v) (a data : Nat) :
    Takes (t.write v (Addr.nearest a) (Addr.nearest data)) (t.imprint v a data) data
      (t.outLength v) := by
  induction t generalizing a data with
  | scalar s =>
    refine ⟨0, Addr.advance_zero _, ?_⟩
    rw [imprint, near_singleton]
    rfl
  | bool =>
    refine ⟨0, Addr.advance_zero _, ?_⟩
    rw [imprint, near_singleton]
    rfl
  | string => exact takes_outOfLine _ a data hv
  | blob => exact takes_outOfLine _ a data hv
  | text => exact takes_outOfLine _ a data hv
  | bytes => exact takes_outOfLine _ a data hv
  | list t ih =>
    obtain ⟨hn, hxs⟩ := hv
    obtain ⟨taken, hnext, helements⟩ :=
      takes_elements t.size v.raw hn (fun x hx => ih x (hxs x hx)) data
    refine ⟨taken, hnext, ?_⟩
    rw [write, helements, header_eq_near a _ hn, imprint, near_append]
    simp only [bind_assoc, pure_bind]
  | result t e iht ihe =>
    obtain ⟨offset, dataPtr, value⟩ := v
    cases value with
    | ok x =>
      have hx := (iht x hv (a + tagSize) data).tagged 0 a
      rw [← Addr.advance_nearest] at hx
      exact hx
    | error x =>
      have hx := (ihe x hv (a + tagSize) data).tagged 1 a
      rw [← Addr.advance_nearest] at hx
      exact hx

namespace Writing

variable {m : Memory} {ps : List Piece}

/-- Bytes whose place is in the memory are put there. -/
theorem bytes_of_covers {a : Addr} {bs : Bytes} (h : m.Covers a.toNat bs.length) :
    Writing.bytes a bs m = pure ((), m.splice a.toNat bs) := by
  have hin : m.InBounds a bs.length := h
  rw [Writing.bytes, Memory.store, Memory.write, if_pos hin]
  rfl

/-- Bytes whose place is not are left out. -/
theorem bytes_of_not_covers {a : Addr} {bs : Bytes} (h : ¬m.Covers a.toNat bs.length) :
    Writing.bytes a bs m =
      .failing (.writeOutOfBounds a (UInt32.ofNat bs.length) m.size) ((), m) := by
  have hout : ¬m.InBounds a bs.length := h
  rw [Writing.bytes, Memory.store, Memory.write, if_neg hout]
  rfl

theorem covers_bytes (m : Memory) (a : Addr) (bs : Bytes) (b n : Nat) :
    (Writing.bytes a bs m).value.2.Covers b n ↔ m.Covers b n := by
  by_cases hc : m.Covers a.toNat bs.length
  · rw [bytes_of_covers hc]
    exact Memory.covers_splice ..
  · rw [bytes_of_not_covers hc]
    exact Iff.rfl

theorem covers_of_bytes {a : Addr} {bs : Bytes} (h : (Writing.bytes a bs m).fault = none) :
    m.Covers a.toNat bs.length := by
  by_cases hc : m.Covers a.toNat bs.length
  · exact hc
  · rw [bytes_of_not_covers hc] at h
    contradiction

theorem value_bytes {p : Piece} (hc : m.Covers p.start p.bytes.length)
    (hend : p.start + p.bytes.length ≤ Addr.space) :
    (Writing.bytes (Addr.nearest p.start) p.bytes m).value.2 = m.splice p.start p.bytes := by
  obtain ⟨a, bs⟩ := p
  cases bs with
  | nil =>
    -- whether or not its address is in bounds, nothing is written
    by_cases hin : m.Covers (Addr.nearest a).toNat 0
    · rw [bytes_of_covers hin]
      rfl
    · rw [bytes_of_not_covers hin]
      rfl
  | cons b bs =>
    have ha : (Addr.nearest a).toNat = a := Addr.toNat_nearest_of_lt (by simp at hend; omega)
    have hin : m.Covers (Addr.nearest a).toNat (b :: bs).length := by rwa [ha]
    rw [bytes_of_covers hin, ha]
    rfl

theorem value_near (hc : ∀ p ∈ ps, m.Covers p.start p.bytes.length)
    (hend : ∀ p ∈ ps, p.start + p.bytes.length ≤ Addr.space) : (near ps m).value.2 = m.put ps := by
  induction ps generalizing m with
  | nil => rfl
  | cons p ps ih =>
    have hp := value_bytes (hc p List.mem_cons_self) (hend p List.mem_cons_self)
    change (near ps (Writing.bytes (Addr.nearest p.start) p.bytes m).value.2).value.2 = _
    rw [hp]
    apply ih
    · intro q hq
      exact (Memory.covers_splice ..).2 (hc q (List.mem_cons_of_mem p hq))
    · intro q hq
      exact hend q (List.mem_cons_of_mem p hq)

/-- What is written without a fault is in the memory, at the nearest addresses. -/
theorem covers_of_near (h : (near ps m).fault = none) :
    ∀ p ∈ ps, m.Covers (Addr.nearest p.start).toNat p.bytes.length := by
  induction ps generalizing m with
  | nil =>
    intro p hp
    contradiction
  | cons p ps ih =>
    have hfaults : (Writing.bytes (Addr.nearest p.start) p.bytes m).fault = none ∧
        (near ps (Writing.bytes (Addr.nearest p.start) p.bytes m).value.2).fault = none :=
      Option.or_eq_none_iff.1 h
    intro q hq
    rcases List.mem_cons.1 hq with rfl | hq
    · exact covers_of_bytes hfaults.1
    · exact (covers_bytes ..).1 (ih hfaults.2 q hq)

/-- A piece written without a fault is in its exact place unless it is empty, if it ends within the
address space or the memory does. -/
theorem covers_of_nearest {p : Piece} (hp : 0 < p.bytes.length)
    (h : m.Covers (Addr.nearest p.start).toNat p.bytes.length)
    (hend : m.limit < Addr.space ∨ p.start + p.bytes.length ≤ Addr.space) :
    m.Covers p.start p.bytes.length := by
  obtain ⟨hbase, hlimit⟩ := h
  rw [Addr.toNat_nearest] at hbase hlimit
  have hstart : min p.start (Addr.space - 1) = p.start := by omega
  rw [hstart] at hbase hlimit
  exact ⟨hbase, hlimit⟩

end Writing

end HostCall
