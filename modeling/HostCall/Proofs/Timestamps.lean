import HostCall.Proofs.CanonicalCells

/-! Points in time are lowered to the second they lie in and lifted to its start. The second of a
point before the epoch comes out of a distance without a sign, by a cast, a negation and, for a
fraction, a decrement, all on words; only at the very first point that can be held does one of
these leave the range of its word. Main statements: `Timestamp.tickExact_iff`, `lift_lower_time`. -/

namespace HostCall

namespace Timestamp

/-- The points that can be held: 64 bits of seconds with their sign, and any fraction. -/
def Holdable (t : Timestamp) : Prop :=
  Int64.minValue.toInt ≤ t.seconds ∧ t.seconds ≤ Int64.maxValue.toInt

instance decidableHoldable (t : Timestamp) : Decidable t.Holdable :=
  inferInstanceAs (Decidable (_ ∧ _))

def startOfSecond (t : Timestamp) : Timestamp := ⟨t.seconds * nanosPerSecond⟩

theorem seconds_startOfSecond (t : Timestamp) : t.startOfSecond.seconds = t.seconds := by
  simp only [startOfSecond, seconds, nanosPerSecond]
  omega

@[simp] theorem startOfSecond_startOfSecond (t : Timestamp) :
    t.startOfSecond.startOfSecond = t.startOfSecond := by
  rw [startOfSecond, seconds_startOfSecond, startOfSecond]

theorem Holdable.startOfSecond {t : Timestamp} (ht : t.Holdable) : t.startOfSecond.Holdable := by
  rw [Holdable, seconds_startOfSecond]
  exact ht

theorem startOfSecond_le (t : Timestamp) :
    t.startOfSecond.nanoseconds ≤ t.nanoseconds ∧
      t.nanoseconds < t.startOfSecond.nanoseconds + nanosPerSecond := by
  simp only [startOfSecond, seconds, nanosPerSecond]
  omega

theorem startOfSecond_mono {t u : Timestamp} (h : t.nanoseconds ≤ u.nanoseconds) :
    t.startOfSecond.nanoseconds ≤ u.startOfSecond.nanoseconds := by
  simp only [startOfSecond, seconds, nanosPerSecond]
  omega

/-- The whole seconds of the distance from the epoch, as `tick` goes on with them. -/
def wholeTick (t : Timestamp) : Int64 := t.distance.wholeSeconds.toInt64

/-- No step of `tick` leaves the range of the word it is done in. -/
structure TickExact (t : Timestamp) : Prop where
  cast : t.wholeTick.toInt = (t.distance.nanoseconds / nanosPerSecond : Nat)
  neg : t.nanoseconds < 0 → (-t.wholeTick).toInt = -t.wholeTick.toInt
  pred : t.nanoseconds < 0 → 0 < t.distance.fraction →
    (-t.wholeTick - 1).toInt = (-t.wholeTick).toInt - 1

theorem toInt_ofInt {n : Int} (hlow : Int64.minValue.toInt ≤ n) (hhigh : n ≤ Int64.maxValue.toInt) :
    (Int64.ofInt n).toInt = n := by
  rw [Int64.toInt_minValue] at hlow
  rw [Int64.toInt_maxValue] at hhigh
  exact Int64.toInt_ofInt_of_le hlow (by omega)

/-- The distance of a point that can be held has its seconds in a word with a sign, but for the
first one. -/
theorem distance_le_iff {t : Timestamp} (ht : t.Holdable) :
    ((t.distance.nanoseconds / nanosPerSecond : Nat) : Int) ≤ Int64.maxValue.toInt ↔
      t.nanoseconds ≠ earliest := by
  simp only [Holdable, seconds, distance, earliest, nanosPerSecond, Int64.toInt_minValue,
    Int64.toInt_maxValue] at ht ⊢
  omega

/-- Words are wide enough for every point that can be held, but for the first one. -/
theorem tickExact_iff {t : Timestamp} (ht : t.Holdable) :
    t.TickExact ↔ t.nanoseconds ≠ earliest := by
  have hwhole : t.wholeTick = Int64.ofInt (t.distance.nanoseconds / nanosPerSecond : Nat) :=
    toInt64_wholeSeconds t.distance
  rw [← distance_le_iff ht]
  constructor
  · intro h
    rw [← h.cast]
    exact Int64.toInt_le _
  · intro hle
    have hmin : Int64.minValue.toInt = -Int64.maxValue.toInt - 1 := rfl
    have hmax : 0 ≤ Int64.maxValue.toInt := by decide
    obtain ⟨n, hn⟩ : ∃ n, n = t.distance.nanoseconds / nanosPerSecond := ⟨_, rfl⟩
    rw [← hn] at hwhole hle
    have hcast : t.wholeTick.toInt = n := by
      rw [hwhole]
      exact toInt_ofInt (by omega) hle
    have hneg : (-t.wholeTick).toInt = -(n : Int) := by
      rw [hwhole, ← Int64.ofInt_neg]
      exact toInt_ofInt (by omega) (by omega)
    refine ⟨hcast.trans (congrArg _ hn), fun _ => by rw [hneg, hcast], fun hbefore hfraction => ?_⟩
    -- a fraction leaves room for one second more
    have hroom : Int64.minValue.toInt ≤ -(n : Int) - 1 := by
      have hlow := ht.1
      rwa [seconds_of_neg hbefore, if_pos hfraction, ← hn] at hlow
    have hpred : -t.wholeTick - 1 = Int64.ofInt (-(n : Int) - 1) := by
      rw [hwhole, Int64.ofInt_sub, Int64.ofInt_neg]
      rfl
    rw [hpred, hneg]
    exact toInt_ofInt hroom (by omega)

theorem toInt_tick {t : Timestamp} (ht : t.Holdable) : t.tick.toInt = t.seconds := by
  rw [tick_eq, toInt_ofInt ht.1 ht.2]

theorem ofSeconds_tick {t : Timestamp} (ht : t.Holdable) : ofSeconds t.tick = t.startOfSecond := by
  rw [ofSeconds, toInt_tick ht, startOfSecond]

theorem holdable_ofSeconds (s : Int64) : (ofSeconds s).Holdable := by
  rw [Holdable, seconds_ofSeconds]
  exact ⟨Int64.minValue_le_toInt s, Int64.toInt_le s⟩

theorem tick_ofSeconds (s : Int64) : (ofSeconds s).tick = s := by
  rw [← Int64.toInt_inj, toInt_tick (holdable_ofSeconds s), seconds_ofSeconds]

theorem ofSeconds_eq_epoch_iff (s : Int64) : ofSeconds s = epoch ↔ s = 0 := by
  rw [← Int64.toInt_inj, ofSeconds, epoch, mk.injEq, Int64.toInt_zero, nanosPerSecond]
  omega

theorem ofSeconds_eq_earliest_iff (s : Int64) :
    (ofSeconds s).nanoseconds = earliest ↔ s = Int64.minValue := by
  rw [← Int64.toInt_inj, ofSeconds, earliest]
  exact Int.mul_eq_mul_right_iff (by decide)

end Timestamp

theorem Cell.toInt64_eq_iff (c : Cell) (k : Int64) : c.toInt64 = k ↔ c = k.toUInt64 := by
  constructor
  · rintro rfl
    exact (UInt64.toUInt64_toInt64 c).symm
  · rintro rfl
    exact Int64.toInt64_toUInt64 k

namespace Frame

theorem lower_time (fr : Frame) (t : Timestamp) : fr.lower .time t = fr.push t.tick.toUInt64 := by
  have hlower : HostType.time.lower t fr.toResources =
      pure ([t.tick.toUInt64], fr.toResources) := rfl
  rw [lower_of_eq_pure hlower]
  rfl

theorem lift_time (fr : Frame) (c : Cell) :
    (fr.push c).lift .time = (.ofSeconds c.toInt64, fr) := by
  rw [← Timestamp.ofTick_eq]
  exact lift_of_eq_pure rfl

theorem lift_lowered_time (fr : Frame) {t : Timestamp} (ht : t.Holdable) :
    (fr.lower .time t).lift .time = (t.startOfSecond, fr) := by
  rw [fr.lower_time, fr.lift_time, Int64.toInt64_toUInt64, Timestamp.ofSeconds_tick ht]

end Frame

/-- A point in time that can be held, but for the first one, is lowered to its second without
leaving a word and lifted to the start of it. So it comes back no later and less than a second
earlier, no point overtakes another, and what came back stays as it is, the first point of all
included: its negation wraps around to itself. A cell is never lifted to the epoch for want of a
point in time, and comes back as well. -/
theorem lift_lower_time :
    (∀ (t : Timestamp) (fr : Frame), t.Holdable → t.nanoseconds ≠ Timestamp.earliest →
      let back := (fr.lower .time t).lift .time
      t.TickExact ∧
        (∃ c : Cell, c.toInt64.toInt = t.nanoseconds / nanosPerSecond ∧
          fr.lower .time t = fr.push c) ∧
        back = (t.startOfSecond, fr) ∧
        (fr.lower .time back.1).lift .time = back ∧
        back.1.nanoseconds ≤ t.nanoseconds ∧
        t.nanoseconds < back.1.nanoseconds + nanosPerSecond ∧
        ∀ u : Timestamp, u.Holdable → u.nanoseconds ≠ Timestamp.earliest →
          t.nanoseconds ≤ u.nanoseconds →
          back.1.nanoseconds ≤ ((fr.lower .time u).lift .time).1.nanoseconds) ∧
      ∀ (c : Cell) (fr : Frame),
        let lifted := ((fr.push c).lift .time).1
        Timestamp.ofTick? c.toInt64 = some lifted ∧ (lifted = .epoch ↔ c = 0) ∧
          (c ≠ 0x8000000000000000 →
            lifted.TickExact ∧ (fr.push c).renew .time = fr.push c) := by
  constructor
  · intro t fr ht hfirst back
    have hback : back = (t.startOfSecond, fr) := fr.lift_lowered_time ht
    refine ⟨(Timestamp.tickExact_iff ht).2 hfirst, ⟨_, ?_, fr.lower_time t⟩, hback, ?_, ?_⟩
    · rw [Int64.toInt64_toUInt64, Timestamp.toInt_tick ht, Timestamp.seconds]
    · rw [hback, fr.lift_lowered_time ht.startOfSecond, t.startOfSecond_startOfSecond]
    · rw [hback]
      refine ⟨t.startOfSecond_le.1, t.startOfSecond_le.2, fun u hu _ hle => ?_⟩
      rw [fr.lift_lowered_time hu]
      exact Timestamp.startOfSecond_mono hle
  · intro c fr lifted
    have hlifted : lifted = .ofSeconds c.toInt64 := congrArg Prod.fst (fr.lift_time c)
    rw [hlifted]
    refine ⟨Timestamp.ofTick?_eq _, ?_, fun hc => ⟨?_, ?_⟩⟩
    · rw [Timestamp.ofSeconds_eq_epoch_iff, Cell.toInt64_eq_iff]
      rfl
    · rw [Timestamp.tickExact_iff (Timestamp.holdable_ofSeconds _), ne_eq,
        Timestamp.ofSeconds_eq_earliest_iff, Cell.toInt64_eq_iff]
      exact hc
    · rw [Frame.renew, fr.lift_time, fr.lower_time, Timestamp.tick_ofSeconds,
        UInt64.toUInt64_toInt64]

/-- Half a second after the first point that can be held, and half a second before the epoch. -/
theorem lift_lower_time_limits :
    let fr : Frame := .start ⟨⟨0, #[], 0⟩, none, false⟩ [7]
    let early : Timestamp := ⟨Timestamp.earliest + 500000000⟩
    let late : Timestamp := ⟨-500000000⟩
    (early.Holdable ∧ early.nanoseconds ≠ Timestamp.earliest) ∧
      (late.Holdable ∧ late.nanoseconds ≠ Timestamp.earliest) ∧
      early.TickExact ∧ (fr.lower .time early).lift .time = (⟨Timestamp.earliest⟩, fr) ∧
      (fr.lower .time late).lift .time = (⟨-1000000000⟩, fr) ∧
      ((fr.lower .time early).lift .time).1.nanoseconds ≤
        ((fr.lower .time late).lift .time).1.nanoseconds ∧
      (fr.push 0xffffffffffffffff).renew .time = fr.push 0xffffffffffffffff := by
  intro fr early late
  have hearly : early.Holdable ∧ early.nanoseconds ≠ Timestamp.earliest := by decide +kernel
  have hlate : late.Holdable ∧ late.nanoseconds ≠ Timestamp.earliest := by decide +kernel
  obtain ⟨hexact, -, hback, -, -, -, hmono⟩ := lift_lower_time.1 early fr hearly.1 hearly.2
  obtain ⟨-, -, hback', -⟩ := lift_lower_time.1 late fr hlate.1 hlate.2
  exact ⟨hearly, hlate, hexact, hback, hback', hmono late hlate.1 hlate.2 (by decide +kernel),
    ((lift_lower_time.2 0xffffffffffffffff fr).2.2 (by decide)).2⟩

end HostCall
