import HostCall.Proofs.Oblivious
import HostCall.Proofs.ResultTag

/-! What is left of a value that does not fit. A value is written as a list of pieces that does not
depend on the memory. Each piece is written whole if it is in bounds and not at all if it is not,
and the pieces after it are written all the same. A fault therefore leaves the memory untouched
where there is nothing else to write, as with a text or a number, or where nothing is in bounds; of
other values a part may be there. Main statement: `lower_piecewise`. -/

namespace HostCall

variable {α β : Type}

/-- The piece at the address that it is written at. -/
def Piece.placed (p : Piece) : Piece := ⟨(Addr.nearest p.start).toNat, p.bytes⟩

@[simp] theorem Piece.placed_toNat (a : Addr) (bs : Bytes) :
    Piece.placed ⟨a.toNat, bs⟩ = ⟨a.toNat, bs⟩ := by
  simp [placed]

namespace Memory

/-- `m` has room for all bytes of `p`. -/
def Fits (m : Memory) (p : Piece) : Prop := m.Covers p.start p.bytes.length

instance (m : Memory) (p : Piece) : Decidable (m.Fits p) := inferInstanceAs (Decidable (_ ∧ _))

/-- `m` with those of `ps` in place that it has room for. -/
def putFitting (m : Memory) (ps : List Piece) : Memory := m.put (ps.filter (m.Fits ·))

/-- The fault of the first of `ps` that `m` has no room for. -/
def misfit? (m : Memory) (ps : List Piece) : Option Fault :=
  (ps.find? (¬m.Fits ·)).map fun p =>
    .writeOutOfBounds (UInt32.ofNat p.start) (UInt32.ofNat p.bytes.length) m.size

variable {m m' : Memory} {ps qs : List Piece}

theorem SameShape.fits (h : m.SameShape m') (p : Piece) : m'.Fits p ↔ m.Fits p := h.covers _ _

theorem sameShape_put (m : Memory) (ps : List Piece) : m.SameShape (m.put ps) := by
  induction ps generalizing m with
  | nil => exact .refl m
  | cons p ps ih => exact (m.sameShape_splice p.start p.bytes).trans (ih _)

theorem SameShape.filter_fits (h : m.SameShape m') (ps : List Piece) :
    ps.filter (m'.Fits ·) = ps.filter (m.Fits ·) :=
  List.filter_congr fun p _ => by simp only [h.fits p]

theorem SameShape.misfit?_eq (h : m.SameShape m') (ps : List Piece) :
    m'.misfit? ps = m.misfit? ps := by
  simp only [misfit?, h.fits, h.size]

theorem putFitting_append (m : Memory) (ps qs : List Piece) :
    m.putFitting (ps ++ qs) = (m.putFitting ps).putFitting qs := by
  have hshape : m.SameShape (m.putFitting ps) := m.sameShape_put _
  unfold putFitting at hshape ⊢
  rw [List.filter_append, put_append, hshape.filter_fits]

theorem misfit?_append (m : Memory) (ps qs : List Piece) :
    m.misfit? (ps ++ qs) = (m.misfit? ps).or ((m.putFitting ps).misfit? qs) := by
  have hshape : m.SameShape (m.putFitting ps) := m.sameShape_put _
  rw [hshape.misfit?_eq, misfit?, misfit?, misfit?, List.find?_append, Option.map_or]

theorem byte?_put_outside {k : Nat} (h : ∀ p ∈ ps, m.Fits p ∧ ¬p.span.Has k) :
    (m.put ps).byte? k = m.byte? k := by
  induction ps generalizing m with
  | nil => rfl
  | cons p ps ih =>
    obtain ⟨⟨hp, hk⟩, hps⟩ := List.forall_mem_cons.1 h
    have hsplice := (byte?_splice m hp.1 hp.2 k).trans (if_neg hk)
    refine Eq.trans (ih fun q hq => ?_) hsplice
    exact (hps q hq).imp_left ((m.sameShape_splice p.start p.bytes).fits q).2

/-- A byte changes only where a piece lies that is in bounds as a whole. -/
theorem byte?_putFitting {k : Nat} (h : ∀ p ∈ ps, m.Fits p → ¬p.span.Has k) :
    (m.putFitting ps).byte? k = m.byte? k := by
  refine byte?_put_outside fun p hp => ?_
  rw [List.mem_filter, decide_eq_true_iff] at hp
  exact ⟨hp.2, h p hp.1 hp.2⟩

/-- Where nothing is in bounds, nothing changes. -/
theorem putFitting_eq_self (h : ∀ p ∈ ps, ¬m.Fits p) : m.putFitting ps = m := by
  have hnone : ps.filter (m.Fits ·) = [] :=
    List.filter_eq_nil_iff.2 fun p hp => by simpa using h p hp
  rw [putFitting, hnone]
  rfl

/-- A single piece is in place or has left a fault and nothing else. -/
theorem putFitting_singleton {p : Piece} (h : (m.misfit? [p]).isSome) : m.putFitting [p] = m := by
  refine putFitting_eq_self fun q hq hfits => ?_
  obtain rfl := List.mem_singleton.1 hq
  have hnone : m.misfit? [q] = none := by simp [misfit?, hfits]
  rw [hnone] at h
  contradiction

end Memory

namespace Writing

/-- `w` writes `ps`, each of them whole or not at all, and returns `a`, whatever the memory. -/
def Leaves (w : Writing α) (ps : List Piece) (a : α) : Prop :=
  ∀ m : Memory, w m = ⟨(a, m.putFitting ps), m.misfit? ps⟩

theorem leaves_pure (a : α) : Leaves (pure a) [] a := fun _ => rfl

theorem leaves_bytes (a : Addr) (bs : Bytes) : Leaves (bytes a bs) [⟨a.toNat, bs⟩] () := by
  intro m
  by_cases hc : m.Covers a.toNat bs.length
  · have hfits : m.Fits ⟨a.toNat, bs⟩ := hc
    rw [bytes_of_covers hc]
    simp [Memory.putFitting, Memory.misfit?, hfits]
    rfl
  · have hfits : ¬m.Fits ⟨a.toNat, bs⟩ := hc
    rw [bytes_of_not_covers hc]
    simp [Memory.putFitting, Memory.misfit?, hfits]
    rfl

section Bind

variable {w : Writing α} {ps qs : List Piece} {a : α}

theorem Leaves.bind {next : α → Writing β} {b : β} (hw : Leaves w ps a)
    (hn : Leaves (next a) qs b) : Leaves (w >>= next) (ps ++ qs) b := by
  intro m
  change (w m >>= fun r => next r.1 r.2) = _
  rw [hw m, Memory.putFitting_append, Memory.misfit?_append]
  change Outcome.mk (next a (m.putFitting ps)).value
    ((m.misfit? ps).or (next a (m.putFitting ps)).fault) = _
  rw [hn]

theorem Leaves.bind_pure (hw : Leaves w ps a) (f : α → β) :
    Leaves (w >>= fun a => pure (f a)) ps (f a) := by
  have h : Leaves (w >>= fun a => pure (f a)) (ps ++ []) (f a) := hw.bind (leaves_pure (f a))
  rwa [List.append_nil] at h

end Bind

theorem leaves_near (ps : List Piece) : Leaves (near ps) (ps.map Piece.placed) () := by
  induction ps with
  | nil => exact leaves_pure ()
  | cons p ps ih => exact (leaves_bytes (Addr.nearest p.start) p.bytes).bind ih

theorem Takes.leaves {w : Writing UInt32} {ps : List Piece} {data n : Nat} (h : Takes w ps data n) :
    ∃ taken, Leaves w (ps.map Piece.placed) taken := by
  obtain ⟨taken, -, rfl⟩ := h
  exact ⟨taken, (leaves_near ps).bind_pure fun _ => taken⟩

theorem exists_leaves {w : Writing α} {P : Prop} {qs : List Piece} (hw : ∃ ps a, Leaves w ps a)
    (h : P → ∃ a, Leaves w qs a) : ∃ ps a, Leaves w ps a ∧ (P → ps = qs) := by
  by_cases hP : P
  · obtain ⟨a, ha⟩ := h hP
    exact ⟨qs, a, ha, fun _ => rfl⟩
  · obtain ⟨ps, a, ha⟩ := hw
    exact ⟨ps, a, ha, fun h => absurd h hP⟩

/-- Whatever is written is a list of pieces that does not depend on the memory. -/
theorem stepwise_leaves : Stepwise fun _ w => ∃ ps a, Leaves w ps a where
  pure a := ⟨[], a, leaves_pure a⟩
  bytes a bs := ⟨_, (), leaves_bytes a bs⟩
  bind {_ _} w next := by
    rintro ⟨ps, a, hw⟩ hn
    obtain ⟨qs, b, hrest⟩ := hn a
    exact ⟨ps ++ qs, b, hw.bind hrest⟩

end Writing

open Writing

namespace MemType

/-- Each length that lowering a value writes to memory is a 32-bit number. -/
def LengthsFit : (t : MemType) → t.Val → Prop
  | list t, v => (list t).Short v
  | result t e, v => (result t e).Short v
  | _, _ => True

/-- The pieces of a value that is lowered, with pointers to the nearest addresses. -/
def lowered : (t : MemType) → t.Val → List Piece
  | scalar _, _ | bool, _ | string, _ | blob, _ => []
  | text, v => [⟨v.offset.toNat, Utf8.encode v.raw.toList⟩]
  | bytes, v => [⟨v.offset.toNat, v.raw⟩]
  | list t, v => packed t.size t.outLength t.imprint v.raw v.offset.toNat
  | result t e, v => (result t e).imprint v v.offset.toNat v.dataPtr.toNat

/-- Writing the elements of a list leaves their pieces. -/
theorem leaves_elements (t : MemType) (xs : List t.Val) (hn : xs.length < Addr.space)
    (hxs : ∀ x ∈ xs, t.Short x) (data : Addr) :
    ∃ taken, Leaves (elements t.size t.write xs data)
      ((packed t.size t.outLength t.imprint xs data.toNat).map Piece.placed) taken := by
  have h := takes_elements t.size xs hn (fun x hx => t.takes_write x (hxs x hx)) data.toNat
  rw [Addr.nearest_toNat] at h
  exact h.leaves

theorem leaves_write (t : MemType) (v : t.Val) (hv : t.Short v) (a data : Addr) :
    ∃ taken, Leaves (t.write v a data)
      ((t.imprint v a.toNat data.toNat).map Piece.placed) taken := by
  have h := t.takes_write v hv a.toNat data.toNat
  rw [Addr.nearest_toNat, Addr.nearest_toNat] at h
  exact h.leaves

theorem leaves_lower (t : MemType) (v : t.Val) (hv : t.LengthsFit v) :
    ∃ cells, Leaves (t.lower v) ((t.lowered v).map Piece.placed) cells := by
  cases t with
  | scalar | bool | string | blob => exact ⟨_, leaves_pure _⟩
  | text | bytes =>
    rw [lowered, List.map_singleton, Piece.placed_toNat]
    exact ⟨_, (leaves_bytes _ _).bind_pure fun _ => _⟩
  | list t =>
    obtain ⟨taken, h⟩ := t.leaves_elements v.raw hv.1 hv.2 v.offset
    exact ⟨_, h.bind_pure fun _ => _⟩
  | result t e =>
    obtain ⟨taken, h⟩ := leaves_write _ v hv v.offset v.dataPtr
    exact ⟨_, h.bind_pure fun _ => _⟩

end MemType

namespace HostType

/-- Each length that lowering a value writes to memory is a 32-bit number. -/
def LengthsFit : (t : HostType) → t.Val → Prop
  | mem t, v => t.LengthsFit v
  | indirectList t, v => v.raw.length < Addr.space ∧ ∀ x ∈ v.raw, t.Short x
  | pair l r, v => l.LengthsFit v.1 ∧ r.LengthsFit v.2
  | _, _ => True

/-- The pieces of a value that is lowered, with pointers to the nearest addresses. -/
def lowered : (t : HostType) → t.Val → List Piece
  | mem t, v => t.lowered v
  | indirectList t, v =>
    packed t.size t.outLength t.imprint v.raw v.dataPtr.toNat ++
      [⟨v.offset.toNat, headerBytes v.dataPtr.toNat v.raw.length⟩]
  | pair l r, v => l.lowered v.1 ++ r.lowered v.2
  | _, _ => []

theorem leaves_indirect (t : MemType) (v : IndirectList t.Val)
    (hv : (indirectList t).LengthsFit v) :
    ∃ cells, Leaves (do
      let _ ← elements t.size t.write v.raw v.dataPtr
      header v.offset v.dataPtr (UInt32.ofNat v.raw.length)
      return [v.offset.toUInt64] : Writing (List Cell))
      (((indirectList t).lowered v).map Piece.placed) cells := by
  obtain ⟨hn, hxs⟩ := hv
  obtain ⟨taken, h⟩ := t.leaves_elements v.raw hn hxs v.dataPtr
  have hheader := leaves_near [⟨v.offset.toNat, headerBytes v.dataPtr.toNat v.raw.length⟩]
  rw [← header_eq_near _ _ hn, Addr.nearest_toNat] at hheader
  rw [lowered, List.map_append]
  exact ⟨_, h.bind (hheader.bind_pure fun _ => [v.offset.toUInt64])⟩

theorem exists_leaves_lower (t : HostType) (ht : t.portable = true) (v : t.Val) :
    ∃ w ps cells, t.lower v = Lowering.onMemory w ∧ Leaves w ps cells ∧
      (t.LengthsFit v → ps = (t.lowered v).map Piece.placed) := by
  induction t with
  | mem t =>
    obtain ⟨ps, cells, h, hps⟩ := exists_leaves (stepwise_leaves.lower t v) (t.leaves_lower v)
    exact ⟨_, ps, cells, rfl, h, hps⟩
  | indirectList t =>
    obtain ⟨ps, cells, h, hps⟩ := exists_leaves (stepwise_leaves.indirect t v) (leaves_indirect t v)
    exact ⟨_, ps, cells, rfl, h, hps⟩
  | pair l r ihl ihr =>
    obtain ⟨hl, hr⟩ := (Bool.and_eq_true _ _).mp ht
    obtain ⟨wl, ps, left, hlower, hw, hps⟩ := ihl hl v.1
    obtain ⟨wr, qs, right, hlower', hw', hqs⟩ := ihr hr v.2
    refine ⟨wl >>= fun left => wr >>= fun right => pure (left ++ right), ps ++ qs, left ++ right,
      ?_, hw.bind (hw'.bind_pure _), ?_⟩
    · rw [lower, hlower, hlower', Lowering.onMemory_bind]
      simp only [Lowering.onMemory_bind]
      rfl
    · rintro ⟨hlengths, hlengths'⟩
      rw [hps hlengths, hqs hlengths', lowered, List.map_append]
  | handle | context | counter => contradiction
  | _ => exact ⟨pure _, [], _, rfl, leaves_pure _, fun _ => rfl⟩

end HostType

/-- `fr` becomes `after` by writing `ps`, one after the other. -/
structure Piecewise (fr after : Frame) (ps : List Piece) : Prop where
  memory : after.memory = fr.memory.putFitting ps
  fault : after.fault = fr.fault.or (fr.memory.misfit? ps)
  /-- A byte changes only within a piece that is in bounds as a whole. -/
  changed : ∀ k, after.memory.byte? k ≠ fr.memory.byte? k →
    ∃ p ∈ ps, fr.memory.Fits p ∧ p.span.Has k
  /-- Where pieces lie apart, those in bounds are all in place, whatever became of the others. -/
  whole : (ps.Pairwise fun p q => p.span.Disjoint q.span) →
    ∀ p ∈ ps, fr.memory.Fits p → after.memory.Holds p
  nothing : (∀ p ∈ ps, ¬fr.memory.Fits p) → after.memory = fr.memory
  single : ps.length = 1 → fr.fault = none → after.fault.isSome → after.memory = fr.memory

theorem piecewise_of_putFitting {fr after : Frame} {ps : List Piece}
    (hmemory : after.memory = fr.memory.putFitting ps)
    (hfault : after.fault = fr.fault.or (fr.memory.misfit? ps)) : Piecewise fr after ps where
  memory := hmemory
  fault := hfault
  changed k hk := by
    refine Classical.byContradiction fun hnone => hk ?_
    rw [hmemory]
    exact Memory.byte?_putFitting fun p hp hfits hhas => hnone ⟨p, hp, hfits, hhas⟩
  whole hdisjoint p hp hfits := by
    rw [hmemory]
    refine Memory.holds_put (fun q hq => ?_) (hdisjoint.filter _) p ?_
    · exact of_decide_eq_true (List.mem_filter.1 hq).2
    · exact List.mem_filter.2 ⟨hp, decide_eq_true hfits⟩
  nothing hnone := hmemory.trans (Memory.putFitting_eq_self hnone)
  single hlength hclean hfails := by
    obtain ⟨p, rfl⟩ := List.length_eq_one_iff.1 hlength
    rw [hfault, hclean, Option.none_or] at hfails
    exact hmemory.trans (Memory.putFitting_singleton hfails)

theorem piecewise_giving {w : Writing α} {ps : List Piece} {a : α} (h : Leaves w ps a)
    (fr : Frame) : Piecewise fr (fr.giving (Lowering.onMemory w)).2 ps := by
  apply piecewise_of_putFitting
  · change (w fr.memory).value.2 = _
    rw [h]
  · change fr.fault.or ((w fr.memory).fault.or none) = _
    rw [h, Option.or_none]

/-- Lowering a value and writing it in memory form leave the memory as it was but for those pieces
of the value that are in bounds, each of which is written whole. The fault is that of the first that
is not. So a text, bytes or a number that does not fit leaves the memory untouched, and so does any
value none of whose pieces fits. -/
theorem lower_piecewise :
    (∀ (t : HostType) (v : t.Val), t.portable = true →
      ∃ ps, (t.LengthsFit v → ps = (t.lowered v).map Piece.placed) ∧
        (t = .mem .text ∨ t = .mem .bytes → ps.length = 1) ∧
        ∀ fr : Frame, Piecewise fr (fr.lower t v) ps) ∧
    ∀ (t : MemType) (v : t.Val) (a data : Addr),
      ∃ ps, (t.Short v → ps = (t.imprint v a.toNat data.toNat).map Piece.placed) ∧
        (t.flat = true → ps.length = 1) ∧
        ∀ fr : Frame, Piecewise fr (fr.writeValue t v a data).2 ps := by
  constructor
  · intro t v ht
    obtain ⟨w, ps, cells, hlower, h, hps⟩ := t.exists_leaves_lower ht v
    refine ⟨ps, hps, ?_, fun fr => ?_⟩
    · rintro (rfl | rfl)
      · rw [hps trivial]
        rfl
      · rw [hps trivial]
        rfl
    · have hgiving := piecewise_giving h fr
      rw [← hlower] at hgiving
      exact piecewise_of_putFitting hgiving.memory hgiving.fault
  · intro t v a data
    obtain ⟨ps, taken, h, hps⟩ :=
      exists_leaves (stepwise_leaves.write t v a data) (t.leaves_write v · a data)
    refine ⟨ps, hps, fun ht => ?_, piecewise_giving h⟩
    cases t with
    | scalar | bool =>
      rw [hps trivial]
      rfl
    | _ => contradiction

/-- Of two texts the second does not fit, but its header does, and points to where nothing was
written. -/
theorem lower_piecewise_texts :
    let t : HostType := .mem (.list .string)
    let v : t.Val := ⟨0, ["ab", "cd"]⟩
    let fr : Frame := .start ⟨.ofBytes (Array.replicate 19 0), none, false⟩ []
    t.portable = true ∧ t.LengthsFit v ∧
      (fr.lower t v).fault = some (.writeOutOfBounds 18 2 19) ∧
      (fr.lower t v).memory.slice 8 8 = [18, 0, 0, 0, 2, 0, 0, 0] ∧
      ∃ ps, ps = (t.lowered v).map Piece.placed ∧ Piecewise fr (fr.lower t v) ps := by
  have hlengths : (MemType.list .string).Short ⟨0, ["ab", "cd"]⟩ := by decide
  obtain ⟨ps, hps, -, h⟩ := lower_piecewise.1 (.mem (.list .string)) ⟨0, ["ab", "cd"]⟩ rfl
  exact ⟨rfl, hlengths, rfl, rfl, ps, hps hlengths, h _⟩

/-- A fault of writing does not mean that nothing was written: a text can be there without its
header, half of a list, the header of a list without the list, the tag of a result without its
payload. -/
theorem memory_touched_despite_fault :
    let fr : Frame := .start ⟨.ofBytes (Array.replicate 8 0), none, false⟩ []
    let text := (fr.writeValue .string "ab" 6 0).2
    let half := fr.lower (.mem (.list (.scalar .u8))) ⟨7, [(1 : UInt8), (2 : UInt8)]⟩
    let header := fr.lower (.indirectList (.scalar .u8)) ⟨0, 8, [(1 : UInt8)]⟩
    let tag := fr.lower (.mem (.result (.scalar .u8) (.scalar .u64))) ⟨4, 0, .error (5 : UInt64)⟩
    fr.fault = none ∧
      text.fault = some (.writeOutOfBounds 6 8 8) ∧
      text.memory.bytes = #[97, 98, 0, 0, 0, 0, 0, 0] ∧
      half.fault = some (.writeOutOfBounds 8 1 8) ∧
      half.memory.bytes = #[0, 0, 0, 0, 0, 0, 0, 1] ∧
      header.fault = some (.writeOutOfBounds 8 1 8) ∧
      header.memory.bytes = #[8, 0, 0, 0, 1, 0, 0, 0] ∧
      tag.fault = some (.writeOutOfBounds 8 8 8) ∧
      tag.memory.bytes = #[0, 0, 0, 0, 1, 0, 0, 0] :=
  ⟨rfl, rfl, rfl, rfl, rfl, rfl, rfl, rfl, rfl⟩

end HostCall
