import CoreZ.Syscall.Futex

/-!
# `CoreZ.Proofs.Syscall.Futex.Timeout`: how long a timed wait sleeps

`futex_parse_timeout` divides the time that is left by the length of a tick and
drops the rest, so a wait of one and a half ticks ends after one. A deadline is
cut to `FUTEX_MAX_DELTA_SEC` before the clock is subtracted. This is harmless
where the result saturates anyway, but the real-time clock counts from 1970 and
is past that bound: every deadline on it has passed.
-/

set_option autoImplicit false

namespace CoreZ.Proofs.Syscall.Futex

open CoreZ.Syscall.Futex

/-- The reading, in nanoseconds, of the clock that a deadline is on. A relative
deadline counts from the call. -/
def clockNs (absolute realtime : Bool) (tick rtc : Nat) : Int :=
  if absolute then if realtime then rtc * futexNsPerSec else tick * futexTickNs else 0

/-- The time from a reading of the clock to the deadline `sec`, `nsec`. -/
def timeLeft (sec nsec now : Int) : Int := sec * futexNsPerSec + nsec - now

/-- Zero ticks only if no time is left, and else enough ticks for the time that
is left and less than one too many, unless they saturate. -/
def Accurate (left ticks : Int) : Prop :=
  (ticks = 0 → left ≤ 0) ∧
    (0 < left →
      left ≤ ticks * futexTickNs ∧ ticks * futexTickNs < left + futexTickNs ∨
        ticks = futexMaxTicks ∧ futexMaxTicks * futexTickNs < left)

/-- No time is left; or the seconds are not cut, and the rest is less than a
tick or a number of whole ticks; or the result saturates with the cut deadline. -/
def Convertible (ts : Timespec) (now : Int) : Prop :=
  let left := timeLeft ts.tvSec ts.tvNsec now
  left ≤ 0 ∨
    ts.tvSec ≤ futexMaxDeltaSec ∧ (left < futexTickNs ∨ left % futexTickNs = 0) ∨
    futexMaxTicks * futexTickNs ≤ timeLeft (min ts.tvSec futexMaxDeltaSec) ts.tvNsec now

theorem futexTickNs_eq : futexTickNs = 10000000 := rfl

theorem futexNs_eq (sec nsec : Int) (absolute realtime : Bool) (tick rtc : Nat) :
    futexNs sec nsec absolute realtime tick rtc
      = timeLeft sec nsec (clockNs absolute realtime tick rtc) := by
  simp only [futexNs, timeLeft, clockNs, futexTickNs_eq, futexNsPerSec, pitHz]
  cases absolute with
  | false => simp
  | true =>
    cases realtime with
    | false =>
      -- the seconds and the rest of the tick counter make up the counter
      simp only [Bool.false_eq_true, if_true, if_false]
      omega
    | true =>
      simp only [if_true]
      omega

/-- A wait that is accepted lasts as long as it should exactly if its deadline
can be converted. -/
theorem futex_timeout_iff (ts : Timespec) (absolute realtime : Bool) (tick rtc : Nat) (ticks : Int)
    (h : futexParseTimeout ts absolute realtime tick rtc = some ticks) :
    Accurate (timeLeft ts.tvSec ts.tvNsec (clockNs absolute realtime tick rtc)) ticks ↔
      Convertible ts (clockNs absolute realtime tick rtc) := by
  unfold futexParseTimeout at h
  split at h
  · cases h
  obtain rfl := Option.some.inj h
  rw [futexNs_eq]
  generalize clockNs absolute realtime tick rtc = now
  simp only [Accurate, Convertible, futexTicks, timeLeft, futexTickNs_eq, futexNsPerSec,
    futexMaxTicks, futexMaxDeltaSec]
  by_cases hcut : 100000000 < ts.tvSec
  · -- at least a second more is left than the ticks are made of
    simp only [hcut, if_true]
    omega
  · simp only [hcut, if_false]
    omega

/-- Five milliseconds are less than a tick. -/
theorem futex_timeout_iff_short :
    futexParseTimeout ⟨0, 5000000⟩ false false 0 0 = some 1 ∧
      (Accurate (timeLeft 0 5000000 (clockNs false false 0 0)) 1 ↔
        Convertible ⟨0, 5000000⟩ (clockNs false false 0 0)) :=
  ⟨by decide, futex_timeout_iff ⟨0, 5000000⟩ false false 0 0 1 (by decide)⟩

/-- Fifteen milliseconds become one tick, and a deadline in an hour on the
real-time clock becomes none. -/
theorem not_accurate_rest :
    futexParseTimeout ⟨0, 15000000⟩ false false 0 0 = some 1 ∧
      ¬ Accurate (timeLeft 0 15000000 (clockNs false false 0 0)) 1 ∧
      futexParseTimeout ⟨1700003600, 0⟩ true true 0 1700000000 = some 0 ∧
      ¬ Accurate (timeLeft 1700003600 0 (clockNs true true 0 1700000000)) 0 := by
  unfold Accurate
  decide

end CoreZ.Proofs.Syscall.Futex
