import HostCall.Frame
import HostCall.Proofs.HandleSearch

/-! The table of host values over a whole run. Every step leaves an event behind, and what a handle
stands for can be told from the events alone: the value last put or set there unless it was dropped
since. New handles go up over the whole run although values may be set ahead of them, because each
step takes the reach of the table at most one further. Main statement: `table_history`. -/

namespace HostCall

/-- What a host or a call does with a table of host values. A call may be in any state; what it
lifts is a cell that the guest left. -/
inductive TableStep where
  | put (r : Referent)
  | set (h : UInt32) (r : Referent)
  | drop (h : UInt32)
  | get (h : UInt32)
  | getOr (h : UInt32) (fallback : Referent)
  | lift (t : HostType) (c : Cell) (call : Frame)
  | lower (t : HostType) (v : Handle t.Val) (call : Frame)

/-- What a step did and answered. Of a call that lifts, the fault kept before and after is there;
a lowered handle is put or set. -/
inductive TableEvent where
  | put (h : UInt32) (r : Referent)
  | set (h : UInt32) (r : Referent)
  | drop (h : UInt32)
  | get (h : UInt32) (answer : Option Referent)
  | getOr (h : UInt32) (fallback : Referent) (answer : Bool × Referent)
  | lift (t : HostType) (c : Cell) (before : Option Fault) (v : Handle t.Val) (after : Option Fault)

/-- The table after a step, and its event. -/
def TableStep.on (table : HandleTable) : TableStep → HandleTable × TableEvent
  | put r => ((table.put r).2, .put (table.put r).1 r)
  | set h r => (table.set h r, .set h r)
  | drop h => (table.erase h, .drop h)
  | get h => (table, .get h (table.get? h))
  | getOr h fallback => (table, .getOr h fallback (table.getOr h fallback))
  | lift t c call =>
    let lifted := ({ call with handles := some table }.push c).lift (.handle t)
    (lifted.2.handles.getD table, .lift t c call.fault lifted.1 lifted.2.fault)
  | lower t v call =>
    let lowered := { call with handles := some table }.lower (.handle t) v
    let event :=
      if v.id = 0 then .put (lowered.stack.headD 0).toUInt32 ⟨t, v.raw⟩ else .set v.id ⟨t, v.raw⟩
    (lowered.handles.getD table, event)

section Call

variable {table : HandleTable} {t : HostType} {v : Handle t.Val}

theorem Frame.lower_handle (call : Frame) (table : HandleTable) {h : UInt32} {table' : HandleTable}
    (hkeep : Resources.keep t v { call.toResources with handles := some table } =
      pure (h, { call.toResources with handles := some table' })) :
    { call with handles := some table }.lower (.handle t) v =
      { call with handles := some table', stack := h.toUInt64 :: call.stack } := by
  have hlower : (HostType.handle t).lower v { call.toResources with handles := some table } =
      pure ([h.toUInt64], { call.toResources with handles := some table' }) := by
    change (Resources.keep t v _ >>= fun r => pure ([r.1.toUInt64], r.2)) = _
    rw [hkeep]
    rfl
  unfold Frame.lower Frame.giving
  rw [hlower]
  exact congrArg (Frame.mk _ _) Option.or_none

theorem Frame.lift_handle (call : Frame) (t : HostType) (c : Cell) :
    (call.push c).lift (.handle t) =
      let found := call.resolve t c.toUInt32
      (⟨c.toUInt32, found.value⟩, { call with fault := call.fault.or found.fault }) := by
  refine Prod.ext rfl ?_
  refine congrArg (Frame.mk _ _) ?_
  change call.fault.or ((none.or none).or (((call.resolve t c.toUInt32).fault.or none).or none)) = _
  simp only [Option.or_none, Option.none_or]

namespace TableStep

/-- Lowering a value without a handle puts it in the table. -/
theorem on_lower_new (hid : v.id = 0) (call : Frame) :
    (lower t v call).on table = (put ⟨t, v.raw⟩).on table := by
  have hlower := call.lower_handle table (if_pos hid)
  rw [on, on, hlower, if_pos hid]
  change (_, TableEvent.put table.next.toUInt64.toUInt32 _) = _
  rw [UInt32.toUInt32_toUInt64]
  rfl

theorem on_lower_known (hid : v.id ≠ 0) (call : Frame) :
    (lower t v call).on table = (set v.id ⟨t, v.raw⟩).on table := by
  have hlower := call.lower_handle table (if_neg hid)
  rw [on, on, hlower, if_neg hid]
  rfl

end TableStep

/-- All that a step can do to a table: the event that it leaves behind and the table then. -/
inductive TableEvent.Effect (table : HandleTable) : TableEvent → HandleTable → Prop
  | put (r : Referent) : Effect table (.put table.next r) (table.put r).2
  | set (h : UInt32) (r : Referent) : Effect table (.set h r) (table.set h r)
  | drop (h : UInt32) : Effect table (.drop h) (table.erase h)
  | get (h : UInt32) : Effect table (.get h (table.get? h)) table
  | getOr (h : UInt32) (fallback : Referent) :
    Effect table (.getOr h fallback (table.getOr h fallback)) table
  | lift (t : HostType) (c : Cell) (before : Option Fault) {env : Resources}
      (henv : env.handles = some table) :
    Effect table (.lift t c before ⟨c.toUInt32, (env.resolve t c.toUInt32).value⟩
      (before.or (env.resolve t c.toUInt32).fault)) table

theorem TableStep.effect_on (table : HandleTable) (step : TableStep) :
    TableEvent.Effect table (step.on table).2 (step.on table).1 := by
  cases step with
  | put r => exact .put r
  | set h r => exact .set h r
  | drop h => exact .drop h
  | get h => exact .get h
  | getOr h fallback => exact .getOr h fallback
  | lift t c call =>
    rw [on, Frame.lift_handle]
    exact .lift t c call.fault rfl
  | lower t v call =>
    by_cases hid : v.id = 0
    · rw [on_lower_new hid]
      exact .put _
    · rw [on_lower_known hid]
      exact .set v.id _

end Call

namespace TableEvent

/-- The handle whose entry an event may have changed. -/
def target? : TableEvent → Option UInt32
  | put h _ | set h _ | drop h => some h
  | get .. | getOr .. | lift .. => none

/-- What `h` stands for after `past`, the latest event first. -/
def latest (h : UInt32) : (past : List TableEvent) → Option Referent
  | [] => none
  | put k r :: past | set k r :: past => if k = h ∧ k ≠ 0 then some r else latest h past
  | drop k :: past => if k = h then none else latest h past
  | _ :: past => latest h past

/-- The handles given to new values, the latest first. -/
def issued : (past : List TableEvent) → List UInt32
  | [] => []
  | put h _ :: past => h :: issued past
  | _ :: past => issued past

/-- An event is as it has to be after `past`: a new handle is greater than all before, and a look-up
finds what its handle stands for. -/
def Lawful (past : List TableEvent) : TableEvent → Prop
  | put h _ => h ≠ 0 ∧ latest h past = none ∧ ∀ k ∈ issued past, k < h
  | set .. | drop _ => True
  | get h answer => answer = latest h past
  | getOr h fallback answer =>
    match latest h past with
    | some r => answer = (true, r)
    | none => answer = (false, fallback)
  | lift t c before v after =>
    v.id = c.toUInt32 ∧
      match latest v.id past with
      | none => v.raw = t.default ∧ after = before.or (some (.unknownHandle v.id))
      | some r =>
        match r.as? t with
        | none => v.raw = t.default ∧ after = before.or (some (.wrongReferent v.id t))
        | some x => v.raw = x ∧ after = before

/-- Each event is as it has to be after those before it. -/
def AllLawful : (past : List TableEvent) → Prop
  | [] => True
  | e :: past => e.Lawful past ∧ AllLawful past

end TableEvent

structure TableRun where
  table : HandleTable
  /-- The events so far, the latest first. -/
  past : List TableEvent

namespace TableRun

open TableEvent

def start : TableRun := ⟨.empty, []⟩

def next (run : TableRun) (step : TableStep) : TableRun :=
  ⟨(step.on run.table).1, (step.on run.table).2 :: run.past⟩

def after (run : TableRun) (steps : List TableStep) : TableRun := steps.foldl next run

end TableRun

namespace TableEvent

theorem latest_zero (past : List TableEvent) : latest 0 past = none := by
  induction past with
  | nil => rfl
  | cons e past ih =>
    cases e with
    | put k r => exact (if_neg fun hk => hk.2 hk.1).trans ih
    | set k r => exact (if_neg fun hk => hk.2 hk.1).trans ih
    | drop k =>
      rw [latest]
      split
      · rfl
      · exact ih
    | get | getOr | lift => exact ih

variable {table table' : HandleTable} {e : TableEvent} {past : List TableEvent}

/-- What handles stand for is kept up by every step. -/
theorem Effect.entries (he : Effect table e table') (h : ∀ k, table.get? k = latest k past) :
    ∀ k, table'.get? k = latest k (e :: past) := by
  intro k
  have hset (j : UInt32) (r : Referent) : (table.set j r).get? k = latest k (.set j r :: past) := by
    rw [HandleTable.get?_set_eq, h]
    rfl
  cases he with
  | put r => exact hset table.next r
  | set j r => exact hset j r
  | drop j =>
    change _ = if j = k then none else latest k past
    rw [HandleTable.get?_erase, h]
    exact ite_congr (propext eq_comm) (fun _ => rfl) fun _ => rfl
  | get | getOr | lift => exact h k

/-- A step changes nothing but the entry of its own handle. -/
theorem Effect.get?_of_ne (he : Effect table e table') {k : UInt32} (hk : e.target? ≠ some k) :
    table'.get? k = table.get? k := by
  have hset {j : UInt32} (r : Referent) (hj : some j ≠ some k) :
      (table.set j r).get? k = table.get? k := by
    rw [HandleTable.get?_set_eq, if_neg fun heq => hj (congrArg some heq.1)]
  cases he with
  | put r => exact hset r hk
  | set j r => exact hset r hk
  | drop j =>
    rw [HandleTable.get?_erase, if_neg fun heq => hk (congrArg some heq.symm)]
  | get | getOr | lift => rfl

/-- A look-up answers what its handle stands for. -/
theorem Effect.lawful (he : Effect table e table') (h : ∀ k, table.get? k = latest k past)
    (hfree : table.isFree table.next) (hissued : ∀ k ∈ issued past, k < table.next) :
    e.Lawful past := by
  cases he with
  | put r =>
    rw [HandleTable.isFree_iff, h] at hfree
    exact ⟨hfree.1, hfree.2, hissued⟩
  | set | drop => exact trivial
  | get k => exact h k
  | getOr k fallback =>
    simp only [Lawful, HandleTable.getOr, h]
    cases latest k past <;> rfl
  | lift t c before henv =>
    refine ⟨rfl, ?_⟩
    simp only [Resources.resolve, henv, Option.bind_some, h]
    cases latest c.toUInt32 past with
    | none => exact ⟨rfl, rfl⟩
    | some r =>
      dsimp only
      cases r.as? t with
      | none => exact ⟨rfl, rfl⟩
      | some x => exact ⟨rfl, Option.or_none⟩

theorem Effect.reach_le (he : Effect table e table') (hreach : table.reach + 1 < Addr.space) :
    table'.reach ≤ table.reach + 1 := by
  cases he with
  | put r => exact HandleTable.reach_put hreach r
  | set h r => exact table.reach_set h r
  | drop h => exact Nat.le_succ_of_le (table.reach_erase h)
  | get | getOr | lift => exact Nat.le_succ _

theorem Effect.issued_le (he : Effect table e table') (hlt : table.last < table.next)
    (h : ∀ k ∈ issued past, k ≤ table.last) : ∀ k ∈ issued (e :: past), k ≤ table'.last := by
  cases he with
  | put r =>
    intro k hk
    rcases List.mem_cons.1 hk with rfl | hk
    · exact UInt32.le_refl _
    · exact UInt32.le_of_lt (UInt32.lt_of_le_of_lt (h k hk) hlt)
  | set j r => rwa [HandleTable.last_set]
  | drop | get | getOr | lift => exact h

end TableEvent

namespace TableRun

open TableEvent

/-- What is true of the table and the events all along a run. -/
structure Inv (run : TableRun) : Prop where
  entries : ∀ k, run.table.get? k = latest k run.past
  issued : ∀ k ∈ issued run.past, k ≤ run.table.last
  reach : run.table.reach ≤ run.past.length
  lawful : AllLawful run.past

theorem inv_start : start.Inv where
  entries _ := rfl
  issued _ hk := by contradiction
  reach := Nat.le_of_eq HandleTable.reach_empty
  lawful := trivial

theorem Inv.next {run : TableRun} (h : run.Inv) (hlen : run.past.length + 1 < Addr.space)
    (step : TableStep) : (run.next step).Inv := by
  have hreach : run.table.reach + 1 < Addr.space :=
    Nat.lt_of_le_of_lt (Nat.add_le_add_right h.reach 1) hlen
  obtain ⟨hfree, hlt, -⟩ := HandleTable.next_of_reach hreach
  have heffect := step.effect_on run.table
  have hlawful := heffect.lawful h.entries hfree fun k hk =>
    UInt32.lt_of_le_of_lt (h.issued k hk) hlt
  exact {
    entries := heffect.entries h.entries
    issued := heffect.issued_le hlt h.issued
    reach := Nat.le_trans (heffect.reach_le hreach) (Nat.add_le_add_right h.reach 1)
    lawful := ⟨hlawful, h.lawful⟩ }

theorem Inv.after {run : TableRun} (h : run.Inv) (steps : List TableStep)
    (hlen : run.past.length + steps.length < Addr.space) : (run.after steps).Inv := by
  induction steps generalizing run with
  | nil => exact h
  | cons step steps ih =>
    rw [List.length_cons] at hlen
    apply ih (h.next (by omega) step)
    change run.past.length + 1 + steps.length < Addr.space
    omega

end TableRun

/-- What a run of fewer than `2 ^ 32` steps shows of the table: every event is as it has to be after
the earlier ones, the table holds what its handles stand for, and another step changes nothing but
the entry of its own handle. Lifting changes nothing at all. -/
theorem table_history (steps : List TableStep) (hlen : steps.length < Addr.space) :
    let run := TableRun.start.after steps
    TableEvent.AllLawful run.past ∧ run.table.get? 0 = none ∧
      (∀ h, run.table.get? h = TableEvent.latest h run.past) ∧
      (∀ (step : TableStep) (k : UInt32), (step.on run.table).2.target? ≠ some k →
        (step.on run.table).1.get? k = run.table.get? k) ∧
      ∀ (t : HostType) (c : Cell) (call : Frame),
        ((TableStep.lift t c call).on run.table).1 = run.table := by
  intro run
  have hinv : run.Inv := TableRun.inv_start.after steps (by rwa [Nat.add_comm])
  refine ⟨hinv.lawful, ?_, hinv.entries, ?_, fun t c call => rfl⟩
  · rw [hinv.entries, TableEvent.latest_zero]
  · intro step k hk
    exact (step.effect_on run.table).get?_of_ne hk

/-- A value set ahead of the last handle is passed over, and a dropped handle does not come back. -/
theorem table_history_set_ahead :
    let call : Frame := .start ⟨.absent, none, false⟩ []
    let steps : List TableStep := [.put ⟨.uintPtr, (4 : UInt64)⟩, .set 2 ⟨.unit, ()⟩, .drop 1,
      .lower .counter ⟨0, ⟨"visits", 7⟩⟩ call, .lift .uintPtr 3 call, .lift .counter 3 call]
    let run := TableRun.start.after steps
    steps.length < Addr.space ∧ TableEvent.issued run.past = [3, 1] ∧
      TableEvent.AllLawful run.past ∧ run.table.get? 1 = none ∧
      run.table.get? 3 = some ⟨.counter, (⟨"visits", 7⟩ : Counter)⟩ := by
  intro call steps run
  have hall := table_history steps (by decide)
  exact ⟨by decide, rfl, hall.1, hall.2.2.1 1, hall.2.2.1 3⟩

end HostCall
