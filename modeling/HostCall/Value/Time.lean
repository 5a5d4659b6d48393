/-! Durations and points in time. Both are kept to the nanosecond; what crosses the boundary is a
64-bit tick count for a duration and the whole seconds, rounded down, for a point in time. Both ways
a point in time is taken by its distance from the epoch, whose seconds have no sign; `tick_eq` and
`ofTick_eq` say what this comes to. -/

namespace HostCall

def nanosPerSecond : Nat := 1000000000

structure Duration where
  nanoseconds : Nat
deriving DecidableEq

namespace Duration

/-- The longest duration that can be held: 64 bits of seconds and a full fraction. -/
def longest : Nat := UInt64.size * nanosPerSecond - 1

def ofTicks (ticks : UInt64) : Duration := ⟨ticks.toNat⟩

/-- The nanoseconds of the duration, of which only the low 64 bits are kept. -/
def ticks (d : Duration) : UInt64 := UInt64.ofNat d.nanoseconds

def ofSeconds (s : UInt64) : Duration := ⟨s.toNat * nanosPerSecond⟩

def wholeSeconds (d : Duration) : UInt64 := UInt64.ofNat (d.nanoseconds / nanosPerSecond)

/-- The nanoseconds beyond the whole seconds. -/
def fraction (d : Duration) : Nat := d.nanoseconds % nanosPerSecond

def extend (d : Duration) (milliseconds : Nat) : Duration :=
  ⟨min (d.nanoseconds + milliseconds * 1000000) longest⟩

theorem ofTicks_ticks {d : Duration} (h : d.nanoseconds < UInt64.size) : ofTicks d.ticks = d := by
  cases d
  simp only [ofTicks, ticks, UInt64.toNat_ofNat', mk.injEq]
  exact Nat.mod_eq_of_lt h

theorem ticks_ofTicks (c : UInt64) : (ofTicks c).ticks = c := UInt64.ofNat_toNat

end Duration

/-- Nanoseconds since the epoch, negative before it. -/
structure Timestamp where
  nanoseconds : Int
deriving DecidableEq

namespace Timestamp

def epoch : Timestamp := ⟨0⟩

/-- The second that `t` lies in: half a second before the epoch is in second -1. -/
def seconds (t : Timestamp) : Int := t.nanoseconds / nanosPerSecond

/-- How far into its second `t` is. -/
def fraction (t : Timestamp) : Nat := (t.nanoseconds % nanosPerSecond).toNat

def ofSeconds (s : Int64) : Timestamp := ⟨s.toInt * nanosPerSecond⟩

/-- The first point in time that can be held. -/
def earliest : Int := Int64.minValue.toInt * nanosPerSecond

/-- The last point in time that can be held. -/
def latest : Int := Int64.maxValue.toInt * nanosPerSecond + (nanosPerSecond - 1)

/-- The point `d` before `t`, if it can be held. -/
def before? (t : Timestamp) (d : Duration) : Option Timestamp :=
  let n := t.nanoseconds - d.nanoseconds
  if earliest ≤ n then some ⟨n⟩ else none

/-- The point `d` after `t`, if it can be held. -/
def after? (t : Timestamp) (d : Duration) : Option Timestamp :=
  let n := t.nanoseconds + d.nanoseconds
  if n ≤ latest then some ⟨n⟩ else none

/-- The point `milliseconds` before `t`, if it can be held. -/
def back? (t : Timestamp) (milliseconds : Nat) : Option Timestamp :=
  t.before? ⟨milliseconds * 1000000⟩

/-- How far `t` is from the epoch, before or after it. -/
def distance (t : Timestamp) : Duration := ⟨t.nanoseconds.natAbs⟩

/-- The second that `t` lies in, as a word. Before the epoch the whole seconds of the distance are
negated, and one more is taken off for a fraction. At exactly `-2 ^ 63` seconds the whole seconds
have no word with a sign, and negating them wraps round, as where word arithmetic is not checked for
overflow. -/
def tick (t : Timestamp) : Int64 :=
  let whole := t.distance.wholeSeconds.toInt64
  if 0 ≤ t.nanoseconds then whole
  else if 0 < t.distance.fraction then -whole - 1
  else -whole

/-- The start of second `s`, if it can be held. -/
def ofTick? (s : Int64) : Option Timestamp :=
  let distance := Duration.ofSeconds (UInt64.ofNat s.toInt.natAbs)
  if 0 ≤ s then epoch.after? distance else epoch.before? distance

/-- The start of second `s`, or the epoch in its place. -/
def ofTick (s : Int64) : Timestamp := (ofTick? s).getD epoch

theorem seconds_ofSeconds (s : Int64) : (ofSeconds s).seconds = s.toInt := by
  simp only [seconds, ofSeconds, nanosPerSecond]
  omega

/-- From the epoch on the second is the distance in whole seconds. -/
theorem seconds_of_nonneg {t : Timestamp} (h : 0 ≤ t.nanoseconds) :
    t.seconds = (t.distance.nanoseconds / nanosPerSecond : Nat) := by
  simp only [seconds, distance, nanosPerSecond]
  omega

/-- Before the epoch it is the negated distance, less one for a fraction. -/
theorem seconds_of_neg {t : Timestamp} (h : t.nanoseconds < 0) :
    t.seconds = -(t.distance.nanoseconds / nanosPerSecond : Nat) -
      (if 0 < t.distance.fraction then 1 else 0) := by
  by_cases hf : 0 < t.distance.fraction
  · rw [if_pos hf]
    simp only [seconds, distance, Duration.fraction, nanosPerSecond] at hf ⊢
    omega
  · rw [if_neg hf]
    simp only [seconds, distance, Duration.fraction, nanosPerSecond] at hf ⊢
    omega

theorem toInt64_wholeSeconds (d : Duration) :
    d.wholeSeconds.toInt64 = Int64.ofInt (d.nanoseconds / nanosPerSecond : Nat) :=
  Int64.ofInt_eq_ofNat.symm

/-- Taken by its distance from the epoch a point in time is in its second, on either side. -/
theorem tick_eq (t : Timestamp) : t.tick = Int64.ofInt t.seconds := by
  rw [tick, toInt64_wholeSeconds]
  split
  · next h => rw [seconds_of_nonneg h]
  · next h =>
    rw [seconds_of_neg (by omega)]
    split
    · rw [Int64.ofInt_sub, Int64.ofInt_neg]
      rfl
    · rw [Int.sub_zero, Int64.ofInt_neg]

/-- The start of every second that a word counts can be held. -/
theorem ofTick?_eq (s : Int64) : ofTick? s = some (ofSeconds s) := by
  have hlow : Int64.minValue.toInt ≤ s.toInt := Int64.minValue_le_toInt s
  have hhigh : s.toInt ≤ Int64.maxValue.toInt := Int64.toInt_le s
  have hdistance : (UInt64.ofNat s.toInt.natAbs).toNat = s.toInt.natAbs := by
    rw [UInt64.toNat_ofNat']
    simp only [Int64.toInt_minValue, Int64.toInt_maxValue] at hlow hhigh
    omega
  have hsign : 0 ≤ s ↔ 0 ≤ s.toInt := Int64.le_iff_toInt_le
  simp only [ofTick?, Duration.ofSeconds, hdistance, hsign]
  split
  · next h =>
    have hn : epoch.nanoseconds + (s.toInt.natAbs * nanosPerSecond : Nat) =
        s.toInt * nanosPerSecond := by
      simp only [epoch, nanosPerSecond]
      omega
    have hheld : s.toInt * nanosPerSecond ≤ latest := by
      simp only [latest, nanosPerSecond]
      omega
    simp only [after?, hn, if_pos hheld, ofSeconds]
  · next h =>
    have hn : epoch.nanoseconds - (s.toInt.natAbs * nanosPerSecond : Nat) =
        s.toInt * nanosPerSecond := by
      simp only [epoch, nanosPerSecond]
      omega
    have hheld : earliest ≤ s.toInt * nanosPerSecond := by
      simp only [earliest, nanosPerSecond]
      omega
    simp only [before?, hn, if_pos hheld, ofSeconds]

theorem ofTick_eq (s : Int64) : ofTick s = ofSeconds s := by
  rw [ofTick, ofTick?_eq, Option.getD_some]

end Timestamp

end HostCall
