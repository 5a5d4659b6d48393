import HostCall.Proofs.PartialWrites

/-! A memory over a whole run. A host writes to a memory and clears parts of it, itself or through
the call that has it. All that a step can do is to put one run of bytes in place, whole if it is in
bounds and not at all if it is not; how long the memory is never changes, so whether a step is
carried out goes by the step alone. The byte at an address can therefore be told from what the steps
have answered: the one put there last. Main statements: `MemoryStep.on_cases`, `MemoryRun.Inv.after`,
`memory_history`. -/

namespace HostCall

/-- The byte of `p` at address `k`. -/
def Piece.byte? (p : Piece) (k : Nat) : Option UInt8 :=
  if p.start ≤ k then p.bytes[k - p.start]? else none

theorem Piece.byte?_eq_none {p : Piece} {k : Nat} (h : ¬p.span.Has k) : p.byte? k = none := by
  unfold byte?
  split
  · next hk =>
    apply List.getElem?_eq_none
    have hend : ¬k < p.start + p.bytes.length := fun hlt => h ⟨hk, hlt⟩
    omega
  · rfl

theorem Memory.byte?_splice_piece {m : Memory} {p : Piece} (h : m.Fits p) (k : Nat) :
    (m.splice p.start p.bytes).byte? k = (p.byte? k).or (m.byte? k) := by
  rw [byte?_splice m h.1 h.2]
  by_cases hk : p.span.Has k
  · obtain ⟨hstart, hend⟩ := hk
    dsimp only [Piece.span] at hstart hend
    have hb : p.bytes[k - p.start]? = some p.bytes[k - p.start] :=
      List.getElem?_eq_getElem (by omega)
    rw [if_pos ⟨hstart, hend⟩, Piece.byte?, if_pos hstart, hb]
    rfl
  · rw [Piece.byte?_eq_none hk, Option.none_or]
    exact if_neg hk

/-- What a host does to the memory of a call: on the memory itself, where a fault is the answer, or
through the call, which keeps the first one. -/
inductive MemoryStep where
  | write (a : Addr) (bs : Bytes)
  | clear (a : Addr) (n : UInt32)
  | callWrite (a : Addr) (bs : Bytes)
  | callWriteWord (a : Addr) (w : UInt32)
deriving DecidableEq

namespace MemoryStep

/-- The bytes that a step is to put in place. -/
def piece : MemoryStep → Piece
  | write a bs | callWrite a bs => ⟨a.toNat, bs⟩
  | clear a n => ⟨a.toNat, List.replicate n.toNat 0⟩
  | callWriteWord a w => ⟨a.toNat, Memory.wordBytes w⟩

/-- What the memory makes of a step. -/
def attempt (m : Memory) : MemoryStep → Except Fault Memory
  | write a bs | callWrite a bs => m.write a bs
  | clear a n => m.clear a n
  | callWriteWord a w => m.write a (Memory.wordBytes w)

/-- Takes over the memory that an operation leaves, and says whether it was carried out. -/
def adopt (fr : Frame) : Except Fault Memory → Bool × Frame
  | .ok m => (true, { fr with memory := m })
  | .error _ => (false, fr)

/-- Whether the step was carried out, and the call after it. -/
def on (fr : Frame) : MemoryStep → Bool × Frame
  | write a bs => adopt fr (fr.memory.write a bs)
  | clear a n => adopt fr (fr.memory.clear a n)
  | callWrite a bs => fr.write a bs
  | callWriteWord a w => fr.write a (Memory.wordBytes w)

variable {fr : Frame} {step : MemoryStep}

theorem attempt_of_fits {m : Memory} (h : m.Fits step.piece) :
    step.attempt m = .ok (m.splice step.piece.start step.piece.bytes) := by
  cases step with
  | write | callWrite | callWriteWord => exact if_pos h
  | clear a n =>
    unfold Memory.Fits piece at h
    rw [List.length_replicate] at h
    exact if_pos h

theorem attempt_of_not_fits {m : Memory} (h : ¬m.Fits step.piece) :
    ∃ f, step.attempt m = .error f := by
  cases step with
  | write | callWrite | callWriteWord => exact ⟨_, if_neg h⟩
  | clear a n =>
    unfold Memory.Fits piece at h
    rw [List.length_replicate] at h
    exact ⟨_, if_neg h⟩

theorem on_of_attempt_ok {m : Memory} (h : step.attempt fr.memory = .ok m) :
    step.on fr = (true, { fr with memory := m }) := by
  cases step with
  | write | clear => exact congrArg (adopt fr) h
  | callWrite | callWriteWord =>
    rw [attempt] at h
    rw [on, Frame.write, h]

theorem on_of_attempt_error {f : Fault} (h : step.attempt fr.memory = .error f) :
    (step.on fr).1 = false ∧ (step.on fr).2.memory = fr.memory := by
  cases step with
  | write | clear =>
    rw [attempt] at h
    rw [on, h]
    exact ⟨rfl, rfl⟩
  | callWrite | callWriteWord =>
    rw [attempt] at h
    rw [on, Frame.write, h]
    exact ⟨rfl, rfl⟩

/-- All that a step can do: its bytes are in place, or nothing has changed because there is no room
for all of them. -/
theorem on_cases (fr : Frame) (step : MemoryStep) :
    (fr.memory.Fits step.piece ∧ (step.on fr).1 = true ∧
      (step.on fr).2.memory = fr.memory.splice step.piece.start step.piece.bytes) ∨
    (¬fr.memory.Fits step.piece ∧ (step.on fr).1 = false ∧
      (step.on fr).2.memory = fr.memory) := by
  by_cases hfits : fr.memory.Fits step.piece
  · left
    rw [on_of_attempt_ok (attempt_of_fits hfits)]
    exact ⟨hfits, rfl, rfl⟩
  · right
    obtain ⟨f, hf⟩ := attempt_of_not_fits hfits
    exact ⟨hfits, on_of_attempt_error hf⟩

end MemoryStep

/-- A step and whether it was carried out. -/
structure MemoryEvent where
  step : MemoryStep
  done : Bool

/-- The byte that was put at address `k`, if there was one. -/
def MemoryEvent.put? (e : MemoryEvent) (k : Nat) : Option UInt8 :=
  if e.done then e.step.piece.byte? k else none

/-- The byte at address `k` after `past`, the latest event first: the one put there last, or the one
that was there from the start. -/
def lastByte (start : Memory) (past : List MemoryEvent) (k : Nat) : Option UInt8 :=
  (past.findSome? (·.put? k)).or (start.byte? k)

theorem lastByte_cons (start : Memory) (e : MemoryEvent) (past : List MemoryEvent) (k : Nat) :
    lastByte start (e :: past) k = (e.put? k).or (lastByte start past k) := by
  rw [lastByte, lastByte, List.findSome?_cons]
  cases e.put? k <;> rfl

theorem lastByte_of_disjoint {start : Memory} {past : List MemoryEvent} {s : Span} {k : Nat}
    (h : ∀ e ∈ past, e.done = true → e.step.piece.span.Disjoint s) (hk : s.Has k) :
    lastByte start past k = start.byte? k := by
  have hnone : past.findSome? (·.put? k) = none := by
    refine List.findSome?_eq_none_iff.2 fun e he => ?_
    unfold MemoryEvent.put?
    split
    · next hdone => exact Piece.byte?_eq_none fun hhas => h e he hdone k hhas hk
    · rfl
  rw [lastByte, hnone, Option.none_or]

structure MemoryRun where
  frame : Frame
  /-- The events so far, the latest first. -/
  past : List MemoryEvent

namespace MemoryRun

def start (fr : Frame) : MemoryRun := ⟨fr, []⟩

def next (run : MemoryRun) (step : MemoryStep) : MemoryRun :=
  ⟨(step.on run.frame).2, ⟨step, (step.on run.frame).1⟩ :: run.past⟩

def after (run : MemoryRun) (steps : List MemoryStep) : MemoryRun := steps.foldl next run

/-- What is true all along a run that started with the memory `m`. -/
structure Inv (m : Memory) (run : MemoryRun) : Prop where
  shape : m.SameShape run.frame.memory
  answered : ∀ e ∈ run.past, e.done = true ↔ m.Fits e.step.piece
  bytes : ∀ k, run.frame.memory.byte? k = lastByte m run.past k

variable {m : Memory} {run : MemoryRun}

theorem inv_start (fr : Frame) : (start fr).Inv fr.memory where
  shape := .refl _
  answered _ he := absurd he List.not_mem_nil
  bytes _ := rfl

theorem Inv.next (h : run.Inv m) (step : MemoryStep) : (run.next step).Inv m := by
  have hroom : run.frame.memory.Fits step.piece ↔ m.Fits step.piece := h.shape.fits step.piece
  rcases step.on_cases run.frame with ⟨hfits, hdone, hmemory⟩ | ⟨hfits, hdone, hmemory⟩
  · refine ⟨?_, ?_, fun k => ?_⟩
    · change m.SameShape (step.on run.frame).2.memory
      rw [hmemory]
      exact h.shape.trans (run.frame.memory.sameShape_splice _ _)
    · refine List.forall_mem_cons.2 ⟨?_, h.answered⟩
      exact iff_of_true hdone (hroom.1 hfits)
    · change (step.on run.frame).2.memory.byte? k = lastByte m (_ :: run.past) k
      rw [hmemory, Memory.byte?_splice_piece hfits, lastByte_cons, ← h.bytes, MemoryEvent.put?,
        if_pos hdone]
  · refine ⟨?_, ?_, fun k => ?_⟩
    · change m.SameShape (step.on run.frame).2.memory
      rw [hmemory]
      exact h.shape
    · refine List.forall_mem_cons.2 ⟨?_, h.answered⟩
      exact iff_of_false (by simp [hdone]) (mt hroom.2 hfits)
    · change (step.on run.frame).2.memory.byte? k = lastByte m (_ :: run.past) k
      rw [hmemory, lastByte_cons, ← h.bytes, MemoryEvent.put?, if_neg (by simp [hdone]),
        Option.none_or]

theorem Inv.after (h : run.Inv m) (steps : List MemoryStep) : (run.after steps).Inv m := by
  induction steps generalizing run with
  | nil => exact h
  | cons step steps ih => exact ih (h.next step)

/-- Bytes in place stay there while nothing is put over them. -/
theorem holds_after {fr : Frame} {p : Piece} (h : fr.memory.Holds p) (steps : List MemoryStep)
    (hpast : ∀ e ∈ ((start fr).after steps).past,
      e.done = true → e.step.piece.span.Disjoint p.span) :
    ((start fr).after steps).frame.memory.Holds p := by
  have hinv := (inv_start fr).after steps
  obtain ⟨hc, hbytes⟩ := Memory.holds_iff.1 h
  refine Memory.holds_iff.2 ⟨(hinv.shape.covers _ _).2 hc, fun i hi => ?_⟩
  have hhas : p.span.Has (p.start + i) := ⟨Nat.le_add_right _ _, Nat.add_lt_add_left hi _⟩
  rw [hinv.bytes, lastByte_of_disjoint hpast hhas, hbytes i hi]

end MemoryRun

/-- A word in place is read without a fault. -/
theorem Frame.readWord_of_holds {fr : Frame} {a : Addr} {w : UInt32}
    (h : fr.memory.Holds ⟨a.toNat, Memory.wordBytes w⟩) : fr.readWord a = (w, fr) := by
  have hword : fr.memory.loadWord a = pure w := by
    rw [Memory.loadWord_of_holds h (Memory.length_wordBytes w), Memory.ofBytes_wordBytes]
  rw [readWord, settle, hword]
  exact congrArg (Prod.mk w) (congrArg (Frame.mk _ _) Option.or_none)

namespace Memory

variable {m : Memory} {bytes : Array UInt8} {a : Addr} {n : UInt32}

theorem fits_ofBytes (bytes : Array UInt8) (p : Piece) :
    (ofBytes bytes).Fits p ↔ p.start + p.bytes.length ≤ bytes.size := by
  simp [Fits, Covers, limit, ofBytes]

theorem inBounds_of_shape (h : (ofBytes bytes).SameShape m) :
    m.InBounds a n.toNat ↔ a.toNat + n.toNat ≤ bytes.size := by
  simp [InBounds, h.base, h.length, ofBytes]

end Memory

/-- A run on a memory of `bytes` from address 0 on leaves a memory of as many bytes, at each address
the one put there last. -/
structure MemoryRun.LastPutStays (bytes : Array UInt8) (run : MemoryRun) : Prop where
  size : run.frame.memory.size = bytes.size ∧ run.frame.memory.bytes.size = bytes.size
  /-- A step was carried out just where all its bytes are in the memory, also if there are none. -/
  answered : ∀ e ∈ run.past,
    e.done = true ↔ e.step.piece.start + e.step.piece.bytes.length ≤ bytes.size
  /-- A step that is not carried out changes no byte. -/
  refused : ∀ step : MemoryStep, (step.on run.frame).1 = false →
    (step.on run.frame).2.memory = run.frame.memory
  /-- What is in the memory is read, from the memory or through the call. -/
  read : ∀ (a : Addr) (n : UInt32), a.toNat + n.toNat ≤ bytes.size →
    ∃ bs, run.frame.memory.read a n = .ok bs ∧ run.frame.read? a n = (some bs, run.frame) ∧
      bs.length = n.toNat ∧
      ∀ i < n.toNat, bs[i]? = lastByte (.ofBytes bytes) run.past (a.toNat + i)
  /-- Nothing else is. -/
  readFault : ∀ (a : Addr) (n : UInt32), bytes.size < a.toNat + n.toNat →
    run.frame.memory.read a n = .error (.readOutOfBounds a n bytes.size) ∧
      run.frame.read? a n = (none, run.frame.fail (.readOutOfBounds a n bytes.size))
  /-- A word that was written is read back after any steps that put nothing over it. -/
  word : ∀ (a : Addr) (w : UInt32) (later : List MemoryStep),
    let written := (MemoryStep.callWriteWord a w).on run.frame
    let between := (MemoryRun.start written.2).after later
    written.1 = true →
    (∀ e ∈ between.past, e.done = true → e.step.piece.span.Disjoint ⟨a.toNat, 4⟩) →
      between.frame.readWord a = (w, between.frame)

/-- A memory is a fixed number of bytes of which the last put at each address stays, whatever writes
and clears there are, of whatever length, in or out of bounds. -/
theorem memory_history (bytes : Array UInt8) (call : Frame) (steps : List MemoryStep) :
    ((MemoryRun.start { call with memory := .ofBytes bytes }).after steps).LastPutStays bytes := by
  have hinv := (MemoryRun.inv_start { call with memory := .ofBytes bytes }).after steps
  revert hinv
  generalize (MemoryRun.start { call with memory := .ofBytes bytes }).after steps = run
  intro hinv
  change run.Inv (.ofBytes bytes) at hinv
  refine ⟨⟨hinv.shape.size, hinv.shape.length⟩, ?_, ?_, ?_, ?_, ?_⟩
  · intro e he
    exact (hinv.answered e he).trans (Memory.fits_ofBytes bytes _)
  · intro step hrefused
    rcases step.on_cases run.frame with ⟨-, hdone, -⟩ | ⟨-, -, hmemory⟩
    · rw [hdone] at hrefused
      contradiction
    · exact hmemory
  · intro a n hin
    have hin : run.frame.memory.InBounds a n.toNat := (Memory.inBounds_of_shape hinv.shape).2 hin
    have hread : run.frame.memory.read a n = .ok (run.frame.memory.slice a.toNat n.toNat) :=
      if_pos hin
    refine ⟨_, hread, ?_, Memory.length_slice _ hin.1 hin.2, fun i hi => ?_⟩
    · rw [Frame.read?, hread]
    · rw [Memory.getElem?_slice _ hin.1 hin.2 hi, hinv.bytes]
  · intro a n hout
    have hread : run.frame.memory.read a n = .error (.readOutOfBounds a n bytes.size) := by
      rw [Memory.read, if_neg (mt (Memory.inBounds_of_shape hinv.shape).1 (Nat.not_le.2 hout)),
        hinv.shape.size]
      rfl
    refine ⟨hread, ?_⟩
    rw [Frame.read?, hread]
  · intro a w later written between hdone hpast
    rcases (MemoryStep.callWriteWord a w).on_cases run.frame with ⟨hfits, -, hmemory⟩ | ⟨-, hno, -⟩
    · apply Frame.readWord_of_holds
      apply MemoryRun.holds_after _ later hpast
      rw [hmemory]
      exact Memory.holds_splice hfits
    · exact absurd (hdone.symm.trans hno) Bool.noConfusion

/-- Two writes that overlap, a clear that is refused although only its last byte is out of bounds,
and one of no bytes at the very end. The word under them is read back, and so are the bytes. -/
theorem memory_history_overlapping :
    let call : Frame := .start ⟨.absent, none, false⟩ []
    let later : List MemoryStep := [.write 4 [1, 2, 3], .callWrite 5 [9, 8], .clear 6 3, .clear 8 0]
    let bytes : Array UInt8 := #[7, 7, 7, 7, 7, 7, 7, 7]
    let run := (MemoryRun.start { call with memory := .ofBytes bytes }).after [.write 2 [5, 5]]
    let written := (MemoryStep.callWriteWord 0 0x01020304).on run.frame
    let between := (MemoryRun.start written.2).after later
    written.1 = true ∧ between.past.map (·.done) = [true, false, true, true] ∧
      between.frame.memory.bytes = #[4, 3, 2, 1, 1, 9, 8, 7] ∧
      (∀ e ∈ between.past, e.done = true → e.step.piece.span.Disjoint ⟨0, 4⟩) ∧
      between.frame.readWord 0 = (0x01020304, between.frame) := by
  intro call later bytes run written between
  have hdone : written.1 = true := rfl
  have hdisjoint : ∀ e ∈ between.past, e.done = true → e.step.piece.span.Disjoint ⟨0, 4⟩ := by
    decide
  have hanswers : between.past.map (·.done) = [true, false, true, true] := by decide
  have hbytes : between.frame.memory.bytes = #[4, 3, 2, 1, 1, 9, 8, 7] := by decide
  refine ⟨hdone, hanswers, hbytes, hdisjoint, ?_⟩
  exact (memory_history bytes call [.write 2 [5, 5]]).word 0 0x01020304 later hdone hdisjoint

end HostCall
