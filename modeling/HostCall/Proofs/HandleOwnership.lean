import HostCall.Proofs.HandleHistory

/-! Handles in the hands of guests. A guest may pass any number as a handle, and a call lowers what
it has lifted under the handle that the guest named. While calls lower only new values and values
that their handles stood for, every live handle was given out by `put`, has not been dropped since
and leads to a value of the type that it was given out for. Lowering a handle that led nowhere, or
to a value of another type, breaks this: it makes an entry for it. Main statement:
`table_ownership`. -/

namespace HostCall

namespace TableEvent

/-- The type that `h` was last given out for, unless it was dropped since. -/
def owner (h : UInt32) : (past : List TableEvent) → Option HostType
  | [] => none
  | put k r :: past => if k = h then some r.1 else owner h past
  | drop k :: past => if k = h then none else owner h past
  | _ :: past => owner h past

/-- A call lifted `h` as a `t` when it stood for one, and it has not been dropped since. -/
def Resolved (t : HostType) (h : UInt32) : (past : List TableEvent) → Prop
  | [] => False
  | drop k :: past => k ≠ h ∧ Resolved t h past
  | lift t' _ _ v _ :: past =>
    (t' = t ∧ v.id = h ∧ (latest h past).map Sigma.fst = some t) ∨ Resolved t h past
  | _ :: past => Resolved t h past

end TableEvent

open TableEvent

namespace TableRun

/-- A step that leaves handles to those they were given out for. A table in which no handle is free
gives out none. -/
def Allows (run : TableRun) : TableStep → Prop
  | .put _ => ∃ h, run.table.isFree h
  | .set .. => False
  | .lower t v _ => (v.id = 0 → ∃ h, run.table.isFree h) ∧ (v.id ≠ 0 → Resolved t v.id run.past)
  | .drop _ | .get _ | .getOr .. | .lift .. => True

def AllowsAll (run : TableRun) : List TableStep → Prop
  | [] => True
  | step :: steps => run.Allows step ∧ (run.next step).AllowsAll steps

end TableRun

namespace HandleTable

/-- The type of the value under `h`. -/
def type? (table : HandleTable) (h : UInt32) : Option HostType := (table.get? h).map Sigma.fst

theorem type?_set (table : HandleTable) (h : UInt32) (r : Referent) (k : UInt32) :
    (table.set h r).type? k = if h = k ∧ h ≠ 0 then some r.1 else table.type? k := by
  unfold type?
  rw [get?_set_eq]
  split <;> rfl

theorem type?_erase (table : HandleTable) (h k : UInt32) :
    (table.erase h).type? k = if h = k then none else table.type? k := by
  unfold type?
  rw [get?_erase]
  by_cases hk : h = k
  · rw [if_pos hk, if_pos hk.symm]
    rfl
  · rw [if_neg hk, if_neg (Ne.symm hk)]

end HandleTable

namespace TableRun

/-- What is true all along a run that leaves handles to those they were given out for. -/
structure Owned (run : TableRun) : Prop where
  entries : ∀ k, run.table.get? k = latest k run.past
  owner : ∀ k, run.table.type? k = owner k run.past
  resolved : ∀ t k, Resolved t k run.past → run.table.type? k = some t

variable {run : TableRun}

theorem Owned.put (h : run.Owned) (hfree : ∃ k, run.table.isFree k) (r : Referent) :
    (run.next (.put r)).Owned := by
  obtain ⟨j, -, hnext, -⟩ := HandleTable.next_spec hfree
  obtain ⟨h0, hnone⟩ := HandleTable.isFree_iff.1 hnext
  have htype (k : UInt32) : (run.next (.put r)).table.type? k =
      if run.table.next = k ∧ run.table.next ≠ 0 then some r.1 else run.table.type? k :=
    run.table.type?_set run.table.next r k
  refine ⟨(Effect.put r).entries h.entries, fun k => ?_, fun t k hres => ?_⟩
  · change _ = if run.table.next = k then some r.1 else TableEvent.owner k run.past
    rw [htype, ← h.owner]
    simp only [ne_eq, h0, not_false_eq_true, and_true]
  · have hlive : run.table.type? k = some t := h.resolved t k hres
    have hne : run.table.next ≠ k := by
      rintro rfl
      unfold HandleTable.type? at hlive
      rw [hnone] at hlive
      contradiction
    rw [htype, if_neg fun hk => hne hk.1, hlive]

theorem Owned.drop (h : run.Owned) (j : UInt32) : (run.next (.drop j)).Owned := by
  have htype (k : UInt32) : (run.next (.drop j)).table.type? k =
      if j = k then none else run.table.type? k := run.table.type?_erase j k
  refine ⟨(Effect.drop j).entries h.entries, fun k => ?_, fun t k hres => ?_⟩
  · rw [htype, h.owner]
    rfl
  · obtain ⟨hne, hres⟩ := hres
    rw [htype, if_neg hne, h.resolved t k hres]

theorem Owned.lift (h : run.Owned) (t : HostType) (c : Cell) (call : Frame) :
    (run.next (.lift t c call)).Owned := by
  refine ⟨h.entries, h.owner, fun t' k hres => ?_⟩
  rcases hres with ⟨-, -, hlatest⟩ | hres
  · rw [← h.entries] at hlatest
    exact hlatest
  · exact h.resolved t' k hres

/-- Putting another value of the same type under a live handle changes no type. -/
theorem Owned.set (h : run.Owned) {k : UInt32} {r : Referent} (hk : Resolved r.1 k run.past) :
    (run.next (.set k r)).Owned := by
  have htype (j : UInt32) : (run.next (.set k r)).table.type? j = run.table.type? j := by
    refine (run.table.type?_set k r j).trans ?_
    split
    · next heq => rw [← heq.1, h.resolved r.1 k hk]
    · rfl
  refine ⟨(Effect.set k r).entries h.entries, fun j => ?_, fun t j hres => ?_⟩
  · rw [htype, h.owner]
    rfl
  · rw [htype, h.resolved t j hres]

theorem Owned.next (h : run.Owned) {step : TableStep} (hallow : run.Allows step) :
    (run.next step).Owned := by
  cases step with
  | put r => exact h.put hallow r
  | set => contradiction
  | drop j => exact h.drop j
  | get | getOr => exact ⟨h.entries, h.owner, h.resolved⟩
  | lift t c call => exact h.lift t c call
  | lower t v call =>
    by_cases hid : v.id = 0
    · have hnext : run.next (.lower t v call) = run.next (.put ⟨t, v.raw⟩) := by
        rw [TableRun.next, TableStep.on_lower_new hid, ← TableRun.next]
      rw [hnext]
      exact h.put (hallow.1 hid) _
    · have hnext : run.next (.lower t v call) = run.next (.set v.id ⟨t, v.raw⟩) := by
        rw [TableRun.next, TableStep.on_lower_known hid, ← TableRun.next]
      rw [hnext]
      exact h.set (hallow.2 hid)

theorem Owned.after (h : run.Owned) {steps : List TableStep} (hallow : run.AllowsAll steps) :
    (run.after steps).Owned := by
  induction steps generalizing run with
  | nil => exact h
  | cons step steps ih => exact ih (h.next hallow.1) hallow.2

end TableRun

/-- As long as calls lower new values and values that their handles stood for, the live handles are
those given out and not dropped since, and each leads to a value of the type it was given out
for. -/
theorem table_ownership (steps : List TableStep) (h : TableRun.start.AllowsAll steps) :
    let run := TableRun.start.after steps
    ∀ k, (run.table.get? k).map Sigma.fst = owner k run.past := by
  have hstart : TableRun.start.Owned := ⟨fun _ => rfl, fun _ => rfl, fun _ _ hres => hres.elim⟩
  exact (hstart.after h).owner

/-- A counter that a guest names is lifted and lowered again with another count, dropped, and its
handle not given out again. -/
theorem table_ownership_counter :
    let call : Frame := .start ⟨.absent, none, false⟩ []
    let steps : List TableStep := [.put ⟨.counter, (⟨"visits", 0⟩ : Counter)⟩,
      .lift .counter 1 call, .lower .counter ⟨1, ⟨"visits", 1⟩⟩ call, .lift .uintPtr 1 call,
      .lower .unit ⟨0, ()⟩ call, .drop 2]
    let run := TableRun.start.after steps
    TableRun.start.AllowsAll steps ∧
      (∀ k, (run.table.get? k).map Sigma.fst = owner k run.past) ∧
      owner 1 run.past = some .counter ∧ owner 2 run.past = none := by
  intro call steps run
  have hallow : TableRun.start.AllowsAll steps := by
    refine ⟨⟨1, rfl⟩, trivial, ⟨fun h => ?_, fun _ => .inl ⟨rfl, rfl, rfl⟩⟩, trivial,
      ⟨fun _ => ⟨2, rfl⟩, fun h => absurd rfl h⟩, trivial, trivial⟩
    contradiction
  exact ⟨hallow, table_ownership steps hallow, rfl, rfl⟩

/-- A call that returns the counter it was given makes one under handle 7, which was never given
out, and makes the word under handle 1 a counter. -/
theorem forged_handle :
    let call : Frame := .start ⟨.absent, none, false⟩ []
    let lifted (run : TableRun) (c : Cell) : Handle Counter :=
      (({ call with handles := some run.table }.push c).lift (.handle .counter)).1
    let returned (run : TableRun) (c : Cell) : TableRun :=
      run.after [.lift .counter c call, .lower .counter (lifted run c) call]
    let word : TableRun := TableRun.start.after [.put ⟨.uintPtr, (5 : UInt64)⟩]
    (((returned .start 7).table.get? 7).map Sigma.fst = some .counter ∧
        owner 7 (returned .start 7).past = none) ∧
      (((returned word 1).table.get? 1).map Sigma.fst = some .counter ∧
        owner 1 (returned word 1).past = some .uintPtr) :=
  ⟨⟨rfl, rfl⟩, rfl, rfl⟩

/-- A handle that was lifted, dropped and then lowered is live again. -/
example :
    let call : Frame := .start ⟨.absent, none, false⟩ []
    let run := TableRun.start.after [.put ⟨.uintPtr, (5 : UInt64)⟩, .lift .uintPtr 1 call, .drop 1,
      .lower .uintPtr ⟨1, (5 : UInt64)⟩ call]
    (run.table.get? 1).isSome ∧ owner 1 run.past = none := by
  decide

end HostCall
