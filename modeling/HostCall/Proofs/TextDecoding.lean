import Mathlib.Tactic.SplitIfs
import HostCall.Proofs.CanonicalCells
import HostCall.Proofs.Intact

/-! Text from the guest. Bytes are read as they are where they are UTF-8, by the standard library's
notion of it; of all others the fault tells where they lie, and what is read in their place is text
all the same. So whatever was read can be written again: a text that has room in the memory comes
back, off the stack or out of line, with its address or without. Main statements:
`Utf8.isSome_decode?_iff`, `comesBack`, `read_text`. -/

namespace HostCall

open Outcome

namespace Utf8

/-- A character has the bytes that the standard library gives it. -/
theorem encodeChar_eq (c : Char) : encodeChar c = String.utf8EncodeChar c := by
  have hv : c.toNat < 0xD800 ∨ 0xDFFF < c.toNat ∧ c.toNat < 0x110000 := c.valid
  have hn : c.val.toNat = c.toNat := rfl
  have hbyte {n k : Nat} (h : n = k) : UInt8.ofNat n = UInt8.ofNat k := congrArg _ h
  have hle (k : Nat) : c.toNat ≤ k ↔ c.toNat < k + 1 := Nat.lt_succ_iff.symm
  simp only [encodeChar, String.utf8EncodeChar, continuation, hn, hle, Nat.reduceAdd]
  split_ifs with h1 h2 h3
  · rfl
  · simp only [List.cons.injEq, and_true]
    exact ⟨hbyte (by omega), hbyte (by omega)⟩
  · simp only [List.cons.injEq, and_true]
    exact ⟨hbyte (by omega), hbyte (by omega), hbyte (by omega)⟩
  · simp only [List.cons.injEq, and_true]
    exact ⟨hbyte (by omega), hbyte (by omega), hbyte (by omega), hbyte (by omega)⟩

theorem toByteArray_encode (cs : List Char) : (encode cs).toByteArray = cs.utf8Encode := by
  rw [encode, List.utf8Encode, funext encodeChar_eq]

theorem toByteArray_encode_toList (s : String) : (encode s.toList).toByteArray = s.toUTF8 := by
  rw [toByteArray_encode, String.utf8Encode_toList]
  rfl

theorem length_encode_toList (s : String) : (encode s.toList).length = s.utf8ByteSize := by
  have hsize := congrArg ByteArray.size (toByteArray_encode_toList s)
  rwa [List.size_toByteArray] at hsize

/-- Bytes are UTF-8 just where they are decoded. -/
theorem isSome_decode?_iff (bs : Bytes) :
    (decode? bs).isSome ↔ bs.toByteArray.IsValidUTF8 := by
  constructor
  · intro h
    obtain ⟨cs, hcs⟩ := Option.isSome_iff_exists.1 h
    rw [decode?_eq_some_iff.1 hcs, toByteArray_encode]
    exact .intro cs rfl
  · rintro ⟨cs, hcs⟩
    rw [← toByteArray_encode, List.toByteArray_inj] at hcs
    rw [hcs, decode?_encode]
    rfl

/-- Characters that bytes begin with are read whatever comes after them. -/
theorem scan_append (cs : List Char) (bs : Bytes) :
    scan (encode cs ++ bs) = cs.map some ++ scan bs := by
  induction cs with
  | nil => rfl
  | cons c cs ih =>
    simp only [scan, encode] at ih ⊢
    simp only [List.flatMap_cons, List.append_assoc, scanFrom_encodeChar, ih, List.map_cons,
      List.cons_append]

theorem decodeLossy_append (cs : List Char) (bs : Bytes) :
    decodeLossy (encode cs ++ bs) = cs ++ decodeLossy bs := by
  simp [decodeLossy, scan_append, Function.comp_def]

theorem mem_decodeLossy {bs : Bytes} (h : decode? bs = none) :
    Char.ofNat 0xFFFD ∈ decodeLossy bs := by
  have hgap : none ∈ scan bs := by
    simp only [decode?] at h
    split at h
    · contradiction
    · next hall => simpa using hall
  exact List.mem_map.2 ⟨none, hgap, rfl⟩

end Utf8

theorem Outcome.bind_pure_eq {α β : Type} (o : Outcome α) (f : α → β) :
    (o >>= fun a => pure (f a)) = ⟨f o.value, o.fault⟩ :=
  Outcome.ext rfl Option.or_none

theorem Lifting.liftM_bind {α β : Type} (o : Outcome α) (next : α → Lifting β)
    (cells : List Cell) :
    ((liftM o : Lifting α) >>= next) cells = o >>= fun a => next a cells := by
  apply Outcome.ext
  · rfl
  · change (o.fault.or none).or _ = _
    rw [Option.or_none]
    rfl

/-- The two types of text: with the address where it lies, or without. -/
inductive TextType where
  | located
  | plain

namespace TextType

def type : TextType → MemType
  | located => .text
  | plain => .string

/-- The value for `s` at `a`. -/
def value : (k : TextType) → Addr → String → k.type.Val
  | located, a, s => ⟨a, s⟩
  | plain, _, s => s

variable (k : TextType) (fr : Frame)

theorem lift_region (m : Memory) (offset count : Cell) (rest : List Cell) :
    let a := offset.toUInt32
    k.type.lift m (count :: offset :: rest) =
      (m.load a count.toUInt32 >>= readText a) >>= fun s => pure (k.value a s, rest) := by
  intro a
  have hregion : Lifting.popRegion (count :: offset :: rest) =
      pure ((a, count.toUInt32), rest) := rfl
  cases k with
  | located =>
    refine (Lifting.bind_of_eq_pure hregion).trans ?_
    simp only [Lifting.liftM_bind, bind_assoc]
    rfl
  | plain =>
    refine (Lifting.bind_of_eq_pure hregion).trans ?_
    simp only [Lifting.liftM_bind, bind_assoc]
    rfl

/-- Text taken off the stack is what its region is read as. -/
theorem lift_eq (offset count : Cell) {o : Outcome String}
    (ho : (fr.memory.load offset.toUInt32 count.toUInt32 >>= readText offset.toUInt32) = o) :
    ((fr.push offset).push count).lift (.mem k.type) =
      (k.value offset.toUInt32 o.value, { fr with fault := fr.fault.or o.fault }) := by
  have hsteps := (k.lift_region fr.memory offset count fr.stack).trans (Outcome.bind_pure_eq _ _)
  rw [ho] at hsteps
  exact Frame.lift_eq_of_steps hsteps

/-- Text behind a header is what the region that the header tells is read as. -/
theorem readValue_eq {a p : Addr} {n : UInt32} (h : fr.memory.loadHeader a = pure (p, n))
    {o : Outcome String} (ho : (fr.memory.load p n >>= readText p) = o) :
    fr.readValue k.type a = (k.value p o.value, { fr with fault := fr.fault.or o.fault }) := by
  have hread : k.type.read fr.memory a = o >>= fun s => pure (k.value p s) := by
    cases k with
    | located =>
      change MemType.text.read fr.memory a = _
      rw [MemType.read, h, pure_bind, ← ho, bind_assoc]
      rfl
    | plain =>
      change MemType.string.read fr.memory a = o >>= pure
      rw [MemType.read, h, pure_bind, ← ho, bind_pure]
  rw [Frame.readValue, Frame.settle, hread, Outcome.bind_pure_eq]

end TextType

/-- The bytes of `s`, fewer than a length can count, are in the memory from `a` on. -/
def Memory.HasRoom (m : Memory) (a : Addr) (s : String) : Prop :=
  s.utf8ByteSize < Addr.space ∧ m.Covers a.toNat s.utf8ByteSize

instance (m : Memory) (a : Addr) (s : String) : Decidable (m.HasRoom a s) :=
  inferInstanceAs (Decidable (_ ∧ _))

/-- Wherever there is room for `s`, it is lowered without a fault and then lifted as it was, by
either type and again without a fault: as a region of its own, or behind a header that lies apart
from it. -/
structure ComesBack (s : String) : Prop where
  region : ∀ (k : TextType) (fr : Frame) (a : Addr), fr.fault = none → fr.memory.HasRoom a s →
    let lowered := fr.lower (.mem .text) ⟨a, s⟩
    lowered.fault = none ∧
      lowered.lift (.mem k.type) = (k.value a s, { fr with memory := lowered.memory })
  outOfLine : ∀ (k k' : TextType) (fr : Frame) (offset a data : Addr), fr.fault = none →
    a.toNat + headerSize ≤ Addr.space → fr.memory.Covers a.toNat headerSize →
    fr.memory.HasRoom data s →
    Span.Disjoint ⟨a.toNat, headerSize⟩ ⟨data.toNat, s.utf8ByteSize⟩ →
    let written := (fr.writeValue k.type (k.value offset s) a data).2
    written.fault = none ∧ written.readValue k'.type a = (k'.value data s, written)

theorem readText_encode (a : Addr) (s : String) : readText a (Utf8.encode s.toList) = pure s :=
  Outcome.eq_pure_of_clean? ((clean?_readText a _).trans (text?_encode s))

/-- Text in place is read as it is. -/
theorem load_text {m : Memory} {a : Addr} {s : String} (hs : s.utf8ByteSize < Addr.space)
    (h : m.Holds ⟨a.toNat, Utf8.encode s.toList⟩) :
    (m.load a (UInt32.ofNat s.utf8ByteSize) >>= readText a) = pure s := by
  have hload : m.load a (UInt32.ofNat s.utf8ByteSize) = pure (Utf8.encode s.toList) := by
    apply Outcome.eq_pure_of_clean?
    rw [m.clean?_load, Addr.toNat_ofNat_of_lt hs, ← Utf8.length_encode_toList]
    exact h
  rw [hload, pure_bind, readText_encode]

/-- Text that has room is put in place and its region is pushed. -/
theorem Frame.lower_text {fr : Frame} {a : Addr} {s : String} (h : fr.memory.HasRoom a s) :
    fr.lower (.mem .text) ⟨a, s⟩ =
      ({ fr with memory := fr.memory.splice a.toNat (Utf8.encode s.toList) }.push a.toUInt64).push
        (UInt64.ofNat s.utf8ByteSize) := by
  have hc := h.2
  rw [← Utf8.length_encode_toList] at hc ⊢
  have hwrite : MemType.text.lower ⟨a, s⟩ fr.memory =
      pure (regionCells a (Utf8.encode s.toList).length,
        fr.memory.splice a.toNat (Utf8.encode s.toList)) := by
    change (Writing.bytes a (Utf8.encode s.toList) fr.memory >>= fun r => pure (_, r.2)) = _
    rw [Writing.bytes_of_covers hc, pure_bind]
  rw [lower_mem_of_eq_pure hwrite]
  rfl

/-- Bytes and their header are put in place, if they are in the memory. -/
theorem Writing.outOfLine_of_covers {m : Memory} {a data : Addr} {bs : Bytes}
    (hn : bs.length < Addr.space)
    (hc : ∀ p ∈ pointed bs a.toNat data.toNat, m.Covers p.start p.bytes.length) :
    outOfLine a data bs m =
      pure (UInt32.ofNat bs.length, m.put (pointed bs a.toNat data.toNat)) := by
  obtain ⟨hdata, hrest⟩ := List.forall_mem_cons.1 hc
  have hheader := hrest _ List.mem_cons_self
  have hbytes : header a data (UInt32.ofNat bs.length) =
      Writing.bytes a (headerBytes data.toNat bs.length) := by
    rw [header, Memory.wordBytes, Memory.wordBytes, Addr.toNat_ofNat_of_lt hn, headerBytes]
  change (Writing.bytes data bs m >>= fun r => header a data (UInt32.ofNat bs.length) r.2 >>=
    fun r => pure (UInt32.ofNat bs.length, r.2)) = _
  rw [bytes_of_covers hdata, pure_bind, hbytes,
    bytes_of_covers ((Memory.covers_splice ..).2 hheader), pure_bind]
  rfl

/-- Text of either type that has room is put in place behind its header. -/
theorem TextType.writeValue_eq (k : TextType) {fr : Frame} (offset : Addr) {a data : Addr}
    {s : String} (hs : (Utf8.encode s.toList).length < Addr.space)
    (hc : ∀ p ∈ pointed (Utf8.encode s.toList) a.toNat data.toNat,
      fr.memory.Covers p.start p.bytes.length) :
    (fr.writeValue k.type (k.value offset s) a data).2 =
      { fr with memory := fr.memory.put (pointed (Utf8.encode s.toList) a.toNat data.toNat) } := by
  have hsteps : k.type.write (k.value offset s) a data =
      Writing.outOfLine a data (Utf8.encode s.toList) := by cases k <;> rfl
  simp [fr.writeValue_eq, hsteps, Writing.outOfLine_of_covers hs hc]

/-- A text that has room comes back from its region. -/
theorem TextType.lift_lowered (k : TextType) {fr : Frame} {a : Addr} {s : String}
    (h : fr.memory.HasRoom a s) :
    let lowered := fr.lower (.mem .text) ⟨a, s⟩
    lowered.lift (.mem k.type) = (k.value a s, { fr with memory := lowered.memory }) := by
  intro lowered
  let left : Frame := { fr with memory := fr.memory.splice a.toNat (Utf8.encode s.toList) }
  have hlowered : lowered = (left.push a.toUInt64).push (UInt64.ofNat s.utf8ByteSize) :=
    Frame.lower_text h
  have hcount : (UInt64.ofNat s.utf8ByteSize).toUInt32 = UInt32.ofNat s.utf8ByteSize :=
    UInt64.toUInt32_ofNat' _
  have hheld : left.memory.Holds ⟨a.toNat, Utf8.encode s.toList⟩ := by
    apply Memory.holds_splice
    rw [Utf8.length_encode_toList]
    exact h.2
  have htext : (left.memory.load a.toUInt64.toUInt32 (UInt64.ofNat s.utf8ByteSize).toUInt32 >>=
      readText a.toUInt64.toUInt32) = pure s := by
    rw [hcount, UInt32.toUInt32_toUInt64]
    exact load_text h.1 hheld
  rw [hlowered, k.lift_eq left _ _ htext]
  simp [left, Frame.push]

/-- Every text comes back from where it has room. -/
theorem comesBack (s : String) : ComesBack s where
  region := by
    intro k fr a hf h lowered
    refine ⟨?_, k.lift_lowered h⟩
    rw [show lowered = _ from Frame.lower_text h]
    exact hf
  outOfLine := by
    intro k k' fr offset a data hf ha hheader h hd written
    obtain ⟨hs, hc⟩ := h
    have hlength := Utf8.length_encode_toList s
    rw [← hlength] at hc hd
    have hcovers : ∀ p ∈ pointed (Utf8.encode s.toList) a.toNat data.toNat,
        fr.memory.Covers p.start p.bytes.length := by
      intro p hp
      rcases inside_pointed _ p hp with hin | hin
      · exact Memory.Covers.mono hheader hin
      · exact Memory.Covers.mono hc hin
    let left : Frame :=
      { fr with memory := fr.memory.put (pointed (Utf8.encode s.toList) a.toNat data.toNat) }
    have hwritten : written = left := k.writeValue_eq offset (by rwa [hlength]) hcovers
    have held := Memory.holds_put hcovers (disjoint_pointed _ hd)
    have hpayload : left.memory.Holds ⟨data.toNat, Utf8.encode s.toList⟩ :=
      held _ List.mem_cons_self
    have hpointer : left.memory.Holds ⟨a.toNat, headerBytes data.toNat s.utf8ByteSize⟩ := by
      rw [← hlength]
      exact held _ (List.mem_cons_of_mem _ List.mem_cons_self)
    have hload : left.memory.loadHeader a = pure (data, UInt32.ofNat s.utf8ByteSize) := by
      have hclean := Memory.clean?_loadHeader_of_holds hpointer ha hs
      rw [Addr.nearest_toNat] at hclean
      exact Outcome.eq_pure_of_clean? hclean
    rw [hwritten, k'.readValue_eq left hload (load_text hs hpayload)]
    simp [left, hf]

/-- The text of `bs`, well formed or not. -/
theorem toList_readText (a : Addr) (bs : Bytes) :
    (readText a bs).value.toList = Utf8.decodeLossy bs := by
  unfold readText
  cases hcs : Utf8.decode? bs with
  | none => exact String.toList_ofList
  | some cs =>
    have hlossy := Utf8.decodeLossy_append cs []
    rw [List.append_nil, ← Utf8.decode?_eq_some_iff.1 hcs] at hlossy
    rw [hlossy]
    simp [Utf8.decodeLossy, Utf8.scan, Utf8.scanFrom, Utf8.finish]

/-- What `bs`, which lie at `a`, have to be read as. Where they are not UTF-8, the text that they
begin with is kept and U+FFFD tells of the rest. -/
structure Decoded (bs : Bytes) (a : Addr) (o : Outcome String) : Prop where
  malformed_iff : o.fault = some (.malformedText a) ↔ ¬bs.toByteArray.IsValidUTF8
  wellFormed : bs.toByteArray.IsValidUTF8 → o.fault = none ∧ o.value.toUTF8 = bs.toByteArray
  beginning : ∀ cs rest, bs = Utf8.encode cs ++ rest → cs <+: o.value.toList
  lossy : ¬bs.toByteArray.IsValidUTF8 → Char.ofNat 0xFFFD ∈ o.value.toList ∧ ComesBack o.value

theorem decoded_readText (bs : Bytes) (a : Addr) : Decoded bs a (readText a bs) := by
  have hvalid := Utf8.isSome_decode?_iff bs
  have hbeginning : ∀ cs rest, bs = Utf8.encode cs ++ rest →
      cs <+: (readText a bs).value.toList := by
    rintro cs rest rfl
    rw [toList_readText, Utf8.decodeLossy_append]
    exact List.prefix_append _ _
  cases hcs : Utf8.decode? bs with
  | none =>
    rw [hcs] at hvalid
    have hnot : ¬bs.toByteArray.IsValidUTF8 := fun h => by simpa using hvalid.2 h
    have hfault : (readText a bs).fault = some (.malformedText a) := by
      rw [readText, hcs]
      rfl
    refine ⟨⟨fun _ => hnot, fun _ => hfault⟩, fun h => absurd h hnot, hbeginning, fun _ => ?_⟩
    rw [toList_readText]
    exact ⟨Utf8.mem_decodeLossy hcs, comesBack _⟩
  | some cs =>
    rw [hcs] at hvalid
    have h : bs.toByteArray.IsValidUTF8 := hvalid.1 rfl
    have hread : readText a bs = pure (String.ofList cs) := by rw [readText, hcs]
    refine ⟨⟨fun hfault => ?_, fun hnot => absurd h hnot⟩, fun _ => ?_, hbeginning,
      fun hnot => absurd h hnot⟩
    · rw [hread] at hfault
      contradiction
    · rw [hread, Utf8.decode?_eq_some_iff.1 hcs, Utf8.toByteArray_encode]
      exact ⟨rfl, rfl⟩

end HostCall
