import HostCall.Proofs.Footprint
import HostCall.Proofs.Saturation
import HostCall.Proofs.Shape

/-! Lowering does not look at what is in memory. Over all memories of one shape it gives the same
cells and counts, meets the same fault and puts the same bytes in the same places; every other byte
stays as it was. A value changes nothing outside the two places that it has, so once the place of a
result is cleared, what ends up there goes by the value alone. Main statements:
`HostType.oblivious_lower`, `lower_over_any_bytes`. -/

namespace HostCall

variable {α β : Type}

namespace Memory

variable {m m' m₁ m₁' m₂ m₂' : Memory} {a : Nat} {bs : Bytes}

theorem SameShape.symm (h : m.SameShape m') : m'.SameShape m :=
  ⟨h.base.symm, h.length.symm, h.size.symm⟩

theorem SameShape.covers (h : m.SameShape m') (a n : Nat) : m'.Covers a n ↔ m.Covers a n := by
  simp only [Covers, limit, h.base, h.length]

theorem sameShape_splice (m : Memory) (a : Nat) (bs : Bytes) : m.SameShape (m.splice a bs) :=
  ⟨rfl, size_overwrite _ _ _, rfl⟩

theorem SameShape.splice (h : m.SameShape m') (a : Nat) (bs : Bytes) :
    (m.splice a bs).SameShape (m'.splice a bs) :=
  (m.sameShape_splice a bs).symm.trans (h.trans (m'.sameShape_splice a bs))

/-- `m₁` and `m₁'` are `m` and `m'` after the same bytes were put in the same places: at each address
both have the byte that was put there, or each has the one that it had before. -/
structure SameWrites (m m' m₁ m₁' : Memory) : Prop where
  shape : m₁.SameShape m₁'
  bytes : ∀ k, (∃ b, m₁.byte? k = some b ∧ m₁'.byte? k = some b) ∨
    (m₁.byte? k = m.byte? k ∧ m₁'.byte? k = m'.byte? k)

namespace SameWrites

theorem refl (h : m.SameShape m') : m.SameWrites m' m m' := ⟨h, fun _ => .inr ⟨rfl, rfl⟩⟩

theorem trans (h : m.SameWrites m' m₁ m₁') (h' : m₁.SameWrites m₁' m₂ m₂') :
    m.SameWrites m' m₂ m₂' := by
  refine ⟨h'.shape, fun k => ?_⟩
  rcases h'.bytes k with hput | ⟨hkept, hkept'⟩
  · exact .inl hput
  · rw [hkept, hkept']
    exact h.bytes k

theorem splice (h : m.SameShape m') (hc : m.Covers a bs.length) :
    m.SameWrites m' (m.splice a bs) (m'.splice a bs) := by
  have hc' := (h.covers a bs.length).2 hc
  refine ⟨h.splice a bs, fun k => ?_⟩
  rw [byte?_splice m hc.1 hc.2, byte?_splice m' hc'.1 hc'.2]
  by_cases hk : a ≤ k ∧ k < a + bs.length
  · have hb : bs[k - a]? = some bs[k - a] := List.getElem?_eq_getElem (by omega)
    rw [if_pos hk, if_pos hk]
    exact .inl ⟨_, hb, hb⟩
  · rw [if_neg hk, if_neg hk]
    exact .inr ⟨rfl, rfl⟩

/-- Where the memories agreed before they agree afterwards. -/
theorem agree (h : m.SameWrites m' m₁ m₁') {k : Nat} (hk : m.byte? k = m'.byte? k) :
    m₁.byte? k = m₁'.byte? k := by
  rcases h.bytes k with ⟨b, hb, hb'⟩ | ⟨hkept, hkept'⟩
  · rw [hb, hb']
  · rw [hkept, hkept', hk]

end SameWrites

end Memory

namespace Lowering

/-- Steps that do not depend on the bytes in memory. -/
def Oblivious (steps : Lowering α) : Prop :=
  ∀ (env : Resources) (m' : Memory), env.memory.SameShape m' →
    ∃ after : Memory, env.memory.SameWrites m' (steps env).value.2.memory after ∧
      steps { env with memory := m' } =
        ⟨((steps env).value.1, { (steps env).value.2 with memory := after }), (steps env).fault⟩

theorem oblivious_pure (a : α) : Oblivious (pure a) := fun _ m' h => ⟨m', .refl h, rfl⟩

theorem Oblivious.bind {steps : Lowering α} {next : α → Lowering β} (hs : Oblivious steps)
    (hn : ∀ a, Oblivious (next a)) : Oblivious (steps >>= next) := by
  intro env m' h
  obtain ⟨between, hw, hfirst⟩ := hs env m' h
  obtain ⟨after, hw', hrest⟩ := hn (steps env).value.1 (steps env).value.2 between hw.shape
  refine ⟨after, hw.trans hw', ?_⟩
  change (steps { env with memory := m' } >>= fun r => next r.1 r.2) = _
  rw [hfirst]
  exact congrArg (fun o => (⟨(), (steps env).fault⟩ : Outcome Unit) >>= fun _ => o) hrest

end Lowering

namespace Writing

/-- Writes that do not depend on the bytes in memory. -/
def Oblivious (w : Writing α) : Prop := (Lowering.onMemory w).Oblivious

theorem oblivious_pure (a : α) : Oblivious (pure a) := Lowering.oblivious_pure a

theorem Oblivious.bind {w : Writing α} {next : α → Writing β} (hw : Oblivious w)
    (hn : ∀ a, Oblivious (next a)) : Oblivious (w >>= next) := by
  unfold Oblivious
  rw [Lowering.onMemory_bind]
  exact Lowering.Oblivious.bind hw hn

theorem oblivious_bytes (a : Addr) (bs : Bytes) : Oblivious (bytes a bs) := by
  intro env m' h
  by_cases hc : env.memory.Covers a.toNat bs.length
  · refine ⟨m'.splice a.toNat bs, ?_, ?_⟩
    · rw [Lowering.onMemory, bytes_of_covers hc]
      exact .splice h hc
    · rw [Lowering.onMemory, Lowering.onMemory, bytes_of_covers hc,
        bytes_of_covers ((h.covers _ _).2 hc)]
      rfl
  · refine ⟨m', ?_, ?_⟩
    · rw [Lowering.onMemory, bytes_of_not_covers hc]
      exact .refl h
    · rw [Lowering.onMemory, Lowering.onMemory, bytes_of_not_covers hc,
        bytes_of_not_covers (mt (h.covers _ _).1 hc), h.size]
      rfl

theorem stepwise_oblivious : Stepwise fun _ w => Oblivious w :=
  ⟨oblivious_pure, oblivious_bytes, Oblivious.bind⟩

/-- Pieces written at the nearest addresses change no byte but where they are written. -/
theorem byte?_near {ps : List Piece} {k : Nat}
    (h : ∀ p ∈ ps, ¬Span.Has ⟨(Addr.nearest p.start).toNat, p.bytes.length⟩ k) (m : Memory) :
    (near ps m).value.2.byte? k = m.byte? k := by
  induction ps generalizing m with
  | nil => rfl
  | cons p ps ih =>
    have hrest := ih (fun q hq => h q (List.mem_cons_of_mem p hq))
      (Writing.bytes (Addr.nearest p.start) p.bytes m).value.2
    refine hrest.trans ?_
    by_cases hc : m.Covers (Addr.nearest p.start).toNat p.bytes.length
    · rw [bytes_of_covers hc]
      exact (Memory.byte?_splice m hc.1 hc.2 k).trans (if_neg (h p List.mem_cons_self))
    · rw [bytes_of_not_covers hc]
      rfl

end Writing

open Writing

/-- Writing a value changes nothing but its own bytes and those that it points to, also where its
places are out of bounds or run past the last address. -/
theorem MemType.byte?_write (t : MemType) (v : t.Val) (hv : t.Short v) (a data : Addr) (m : Memory)
    {k : Nat} (hown : ¬Span.Has ⟨a.toNat, t.size⟩ k)
    (hout : ¬Span.Has ⟨data.toNat, t.outLength v⟩ k) :
    (t.write v a data m).value.2.byte? k = m.byte? k := by
  obtain ⟨taken, -, hwrite⟩ := t.takes_write v hv a.toNat data.toNat
  rw [Addr.nearest_toNat, Addr.nearest_toNat] at hwrite
  have hextent := t.extent_le_size v
  have ha := a.toNat_lt_space
  have hdata := data.toNat_lt_space
  have hplace : ∀ p ∈ t.imprint v a.toNat data.toNat,
      p.span.Inside ⟨a.toNat, t.extent v⟩ ∨ p.span.Inside ⟨data.toNat, t.outLength v⟩ :=
    forall_span (P := fun s => s.Inside ⟨a.toNat, t.extent v⟩ ∨ s.Inside ⟨data.toNat, t.outLength v⟩)
      (t.spans_imprint v a.toNat data.toNat) (t.inside_layout v a.toNat data.toNat)
  rw [hwrite]
  refine byte?_near (fun p hp hk => ?_) m
  obtain ⟨hlow, hhigh⟩ := hk
  rw [Addr.toNat_nearest] at hlow hhigh
  -- the nearest address is not past the piece's own, and not in front of where the span starts
  have has {b n : Nat} (hb : b < Addr.space) (hin : p.span.Inside ⟨b, n⟩) : Span.Has ⟨b, n⟩ k := by
    obtain ⟨hstart, hend⟩ := hin
    dsimp only [Piece.span] at hlow hhigh hstart hend
    exact ⟨by dsimp only; omega, by dsimp only; omega⟩
  rcases hplace p hp with hin | hin
  · exact hown (has ha (hin.trans ⟨Nat.le_refl _, by dsimp only; omega⟩))
  · exact hout (has hdata hin)

theorem Resources.oblivious_keep (t : HostType) (v : Handle t.Val) :
    (keep t v).Oblivious := by
  intro env m' h
  obtain ⟨m, table, cancelled⟩ := env
  cases table with
  | none => exact ⟨m', .refl h, rfl⟩
  | some table =>
    unfold keep
    dsimp only
    split
    · exact ⟨m', .refl h, rfl⟩
    · exact ⟨m', .refl h, rfl⟩

/-- Lowering goes by the value, the table and the shape of the memory. -/
theorem HostType.oblivious_lower (t : HostType) (v : t.Val) : (t.lower v).Oblivious := by
  induction t with
  | mem t => exact stepwise_oblivious.lower t v
  | indirectList t => exact stepwise_oblivious.indirect t v
  | pair l r ihl ihr =>
    exact (ihl v.1).bind fun _ => (ihr v.2).bind fun _ => Lowering.oblivious_pure _
  | handle t => exact (Resources.oblivious_keep t v).bind fun _ => Lowering.oblivious_pure _
  | _ => exact Lowering.oblivious_pure _

namespace Frame

theorem giving_oblivious {steps : Lowering α} (hs : steps.Oblivious) (fr : Frame) {m' : Memory}
    (h : fr.memory.SameShape m') :
    ∃ after, { fr with memory := m' }.giving steps =
        ((fr.giving steps).1, { (fr.giving steps).2 with memory := after }) ∧
      fr.memory.SameWrites m' (fr.giving steps).2.memory after := by
  obtain ⟨after, hw, hsteps⟩ := hs fr.toResources m' h
  refine ⟨after, ?_, hw⟩
  unfold giving
  rw [hsteps]

theorem lower_oblivious (fr : Frame) (t : HostType) (v : t.Val) {m' : Memory}
    (h : fr.memory.SameShape m') :
    ∃ after, { fr with memory := m' }.lower t v = { fr.lower t v with memory := after } ∧
      fr.memory.SameWrites m' (fr.lower t v).memory after := by
  obtain ⟨after, hgiving, hw⟩ := giving_oblivious (t.oblivious_lower v) fr h
  refine ⟨after, ?_, hw⟩
  unfold lower
  rw [hgiving]
  rfl

/-- Where two memories agree, they agree after the same value was written to both, whatever else is
different about the calls. -/
theorem byte?_writeValue (fr fr' : Frame) (h : fr.memory.SameShape fr'.memory) (t : MemType)
    (v : t.Val) (a data : Addr) {k : Nat} (hk : fr.memory.byte? k = fr'.memory.byte? k) :
    (fr.writeValue t v a data).2.memory.byte? k = (fr'.writeValue t v a data).2.memory.byte? k := by
  obtain ⟨after, hgiving, hw⟩ := giving_oblivious (stepwise_oblivious.write t v a data) fr h
  have hafter : (fr'.writeValue t v a data).2.memory = after :=
    congrArg (fun r => r.2.memory) hgiving
  rw [hafter]
  exact hw.agree hk

end Frame

/-- After a place is cleared, memories differ only where they did outside it. -/
theorem Memory.agree_clear {m m' : Memory} (h : m.SameShape m') {a : Addr} {n : UInt32}
    (hin : m.InBounds a n.toNat) :
    ∃ cleared cleared', m.clear a n = .ok cleared ∧ m'.clear a n = .ok cleared' ∧
      cleared.SameShape cleared' ∧
      ∀ k, Span.Has ⟨a.toNat, n.toNat⟩ k ∨ m.byte? k = m'.byte? k →
        cleared.byte? k = cleared'.byte? k := by
  have hin' : m'.InBounds a n.toNat := (h.covers a.toNat n.toNat).2 hin
  have hzeros : (List.replicate n.toNat (0 : UInt8)).length = n.toNat := List.length_replicate
  refine ⟨_, _, if_pos hin, if_pos hin', h.splice _ _, fun k hk => ?_⟩
  rw [byte?_splice m hin.1 (by rw [hzeros]; exact hin.2),
    byte?_splice m' hin'.1 (by rw [hzeros]; exact hin'.2), hzeros]
  by_cases hplace : a.toNat ≤ k ∧ k < a.toNat + n.toNat
  · rw [if_pos hplace, if_pos hplace]
  · rw [if_neg hplace, if_neg hplace]
    exact hk.resolve_left hplace

theorem Frame.byte?_lower_result (fr : Frame) {t e : MemType} {v : (MemType.result t e).Val}
    (hv : (MemType.result t e).Short v) {k : Nat}
    (hown : ¬Span.Has ⟨v.offset.toNat, (MemType.result t e).size⟩ k)
    (hout : ¬Span.Has ⟨v.dataPtr.toNat, (MemType.result t e).outLength v⟩ k) :
    (fr.lower (.mem (.result t e)) v).memory.byte? k = fr.memory.byte? k := by
  rw [lower_result, writeValue_eq]
  exact (MemType.result t e).byte?_write v hv _ _ _ hown hout

/-- Clearing any place and lowering a result leaves memories that agree where they did before and
wherever they were cleared. -/
theorem Frame.agree_lower_result (fr fr' : Frame) (h : fr.memory.SameShape fr'.memory)
    (t e : MemType) (v : (MemType.result t e).Val) {a : Addr} {n : UInt32}
    (hin : fr.memory.InBounds a n.toNat) :
    ∃ cleared cleared', fr.memory.clear a n = .ok cleared ∧ fr'.memory.clear a n = .ok cleared' ∧
      ∀ k, Span.Has ⟨a.toNat, n.toNat⟩ k ∨ fr.memory.byte? k = fr'.memory.byte? k →
        ({ fr with memory := cleared }.lower (.mem (.result t e)) v).memory.byte? k =
          ({ fr' with memory := cleared' }.lower (.mem (.result t e)) v).memory.byte? k := by
  obtain ⟨cleared, cleared', hclear, hclear', hshape, hagree⟩ := Memory.agree_clear h hin
  refine ⟨cleared, cleared', hclear, hclear', fun k hk => ?_⟩
  rw [lower_result, lower_result]
  exact byte?_writeValue _ _ hshape _ v _ _ (hagree k hk)

/-- Lowering a value and writing one into memory give the same over all memories of one shape: the
same cells or count, the same fault and table, and the same bytes in the same places. So the bytes at
a result's place, once that is cleared, go by the result alone. Nothing of a result lowered there
earlier is left but what it points to. -/
theorem lower_over_any_bytes :
    (∀ (t : HostType) (v : t.Val) (fr : Frame) (m' : Memory), fr.memory.SameShape m' →
      ∃ after, { fr with memory := m' }.lower t v = { fr.lower t v with memory := after } ∧
        fr.memory.SameWrites m' (fr.lower t v).memory after) ∧
    (∀ (t : MemType) (v : t.Val) (a data : Addr) (fr : Frame) (m' : Memory),
      fr.memory.SameShape m' →
      let written := fr.writeValue t v a data
      ∃ after, { fr with memory := m' }.writeValue t v a data =
          (written.1, { written.2 with memory := after }) ∧
        fr.memory.SameWrites m' written.2.memory after) ∧
    (∀ (t e : MemType) (v : (MemType.result t e).Val) (n : UInt32) (fr fr' : Frame),
      n.toNat = (MemType.result t e).size → fr.memory.SameShape fr'.memory →
      fr.memory.InBounds v.offset n.toNat →
      ∃ cleared cleared', fr.memory.clear v.offset n = .ok cleared ∧
        fr'.memory.clear v.offset n = .ok cleared' ∧
        ∀ k, Span.Has ⟨v.offset.toNat, (MemType.result t e).size⟩ k →
          ({ fr with memory := cleared }.lower (.mem (.result t e)) v).memory.byte? k =
            ({ fr' with memory := cleared' }.lower (.mem (.result t e)) v).memory.byte? k) ∧
    ∀ (t e : MemType) (earlier v : (MemType.result t e).Val) (n : UInt32) (fr : Frame),
      n.toNat = (MemType.result t e).size → (MemType.result t e).Short earlier →
      fr.memory.InBounds earlier.offset n.toNat →
      let fr' := fr.lower (.mem (.result t e)) earlier
      ∃ cleared cleared', fr.memory.clear earlier.offset n = .ok cleared ∧
        fr'.memory.clear earlier.offset n = .ok cleared' ∧
        ∀ k, ¬Span.Has ⟨earlier.dataPtr.toNat, (MemType.result t e).outLength earlier⟩ k →
          ({ fr with memory := cleared }.lower (.mem (.result t e)) v).memory.byte? k =
            ({ fr' with memory := cleared' }.lower (.mem (.result t e)) v).memory.byte? k := by
  refine ⟨?_, ?_, ?_, ?_⟩
  · intro t v fr m' h
    exact fr.lower_oblivious t v h
  · intro t v a data fr m' h
    exact Frame.giving_oblivious (stepwise_oblivious.write t v a data) fr h
  · intro t e v n fr fr' hn h hin
    obtain ⟨cleared, cleared', hclear, hclear', hagree⟩ := fr.agree_lower_result fr' h t e v hin
    refine ⟨cleared, cleared', hclear, hclear', fun k hk => hagree k (.inl ?_)⟩
    rwa [hn]
  · intro t e earlier v n fr hn hearlier hin fr'
    have h := ((HostType.mem (.result t e)).sameShape_lower earlier fr.toResources).memory
    obtain ⟨cleared, cleared', hclear, hclear', hagree⟩ := fr.agree_lower_result fr' h t e v hin
    refine ⟨cleared, cleared', hclear, hclear', fun k hk => hagree k ?_⟩
    -- outside the place and what it points to the earlier result left everything as it was
    by_cases hplace : Span.Has ⟨earlier.offset.toNat, n.toNat⟩ k
    · exact .inl hplace
    · rw [hn] at hplace
      exact .inr (fr.byte?_lower_result hearlier hplace hk).symm

/-- A wide result, then a narrow one in its place: of the first no byte is left, and the second looks
as it does in a fresh memory. -/
theorem lower_over_any_bytes_narrow_over_wide :
    let t : MemType := .result (.scalar .u64) (.scalar .u8)
    let wide : t.Val := ⟨8, 0, .ok (0xffffffffffffffff : UInt64)⟩
    let narrow : t.Val := ⟨8, 0, .error (1 : UInt8)⟩
    let fr : Frame := .start ⟨.ofBytes (Array.replicate 32 0), none, false⟩ []
    let full : Memory := .ofBytes (Array.replicate 32 0xff)
    let after := fr.lower (.mem t) narrow
    (∃ m, { fr with memory := full }.lower (.mem t) narrow = { after with memory := m } ∧
      fr.memory.SameWrites full after.memory m) ∧
    (∃ m, ({ fr with memory := full }.writeValue t narrow 8 0).2 =
        { (fr.writeValue t narrow 8 0).2 with memory := m } ∧
      fr.memory.SameWrites full (fr.writeValue t narrow 8 0).2.memory m) ∧
    (∃ cleared, full.clear 8 12 = .ok cleared ∧ ∀ k, Span.Has ⟨8, 12⟩ k →
      after.memory.byte? k =
        ({ fr with memory := cleared }.lower (.mem t) narrow).memory.byte? k) ∧
    ∃ cleared, (fr.lower (.mem t) wide).memory.clear 8 12 = .ok cleared ∧ ∀ k,
      after.memory.byte? k =
        ({ fr.lower (.mem t) wide with memory := cleared }.lower (.mem t) narrow).memory.byte? k := by
  intro t wide narrow fr full after
  have hshape : fr.memory.SameShape full := ⟨rfl, by decide, by decide⟩
  have hfresh : fr.memory.clear 8 12 = .ok fr.memory :=
    (if_pos (by decide)).trans (congrArg Except.ok (by decide))
  obtain ⟨hlower, hwrite, hplace, hearlier⟩ := lower_over_any_bytes
  refine ⟨hlower (.mem t) narrow fr full hshape, ?_, ?_, ?_⟩
  · obtain ⟨m, hm, hw⟩ := hwrite t narrow 8 0 fr full hshape
    exact ⟨m, congrArg Prod.snd hm, hw⟩
  · obtain ⟨cleared, cleared', hclear, hclear', hagree⟩ :=
      hplace (.scalar .u64) (.scalar .u8) narrow 12 fr { fr with memory := full } (by decide) hshape
        (by decide)
    obtain rfl : fr.memory = cleared := Except.ok.inj (hfresh.symm.trans hclear)
    exact ⟨cleared', hclear', hagree⟩
  · obtain ⟨cleared, cleared', hclear, hclear', hagree⟩ :=
      hearlier (.scalar .u64) (.scalar .u8) wide narrow 12 fr (by decide) trivial (by decide)
    obtain rfl : fr.memory = cleared := Except.ok.inj (hfresh.symm.trans hclear)
    exact ⟨cleared', hclear', fun k => hagree k fun hk => Nat.not_lt.2 hk.1 hk.2⟩

end HostCall
