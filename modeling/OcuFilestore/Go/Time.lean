import OcuFilestore.Go.Int64

/-!
# OcuFilestore.Go.Time

Go's instants and durations, both in nanoseconds; instants count from the
Unix epoch.
-/

namespace OcuFilestore

abbrev Time := Int

def second : Int := 1000000000
def hour : Int := 3600 * second

/-- Seconds from the zero `time.Time` to the Unix epoch. -/
def unixToInternal : Int := 62135596800

/-- The zero `time.Time`, the beginning of the year 1. -/
def zeroTime : Time := -unixToInternal * second

/-- `time.Unix(n, 0)`: the seconds are kept as an `int64` that counts from the
zero time. -/
def ofUnix (n : Int) : Time := (int64 (n + unixToInternal) - unixToInternal) * second

section OfUnix

variable {n : Int} (h₁ : -maxInt64 - 1 ≤ n) (h₂ : n ≤ maxInt64)

include h₁ h₂

/-- A count that wraps wraps into the past. -/
theorem ofUnix_le : ofUnix n ≤ n * second := by
  have hle : int64 (n + unixToInternal) ≤ n + unixToInternal := by
    unfold maxInt64 at h₁ h₂
    unfold int64 unixToInternal
    rw [Int.bmod_def]
    omega
  refine Int.mul_le_mul_of_nonneg_right ?_ (by decide)
  omega

theorem ofUnix_eq_zeroTime_iff : ofUnix n = zeroTime ↔ n = -unixToInternal := by
  have hzero : int64 (n + unixToInternal) = 0 ↔ n = -unixToInternal := by
    unfold maxInt64 at h₁ h₂
    unfold int64 unixToInternal
    rw [Int.bmod_def]
    omega
  rw [ofUnix, zeroTime, Int.mul_eq_mul_right_iff (by decide), ← hzero]
  omega

end OfUnix

/-- `Unix` of an instant. -/
def Time.unix (t : Time) : Int := t / second

/-- `Sub` of two instants: the difference, kept in the range of a duration. -/
def Time.sub (t u : Time) : Int := max (-maxInt64 - 1) (min maxInt64 (t - u))

end OcuFilestore
