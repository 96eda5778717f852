/-!
# OcuFilestore.Go.Int64

Go's `int64` arithmetic: the exact result brought back into range.
-/

namespace OcuFilestore

/-- The largest `int64`. -/
def maxInt64 : Int := 9223372036854775807

/-- The `int64` with this value modulo `2 ^ 64`. -/
def int64 (x : Int) : Int := x.bmod 18446744073709551616

/-- It is in range. -/
theorem int64_range (x : Int) : -maxInt64 - 1 ≤ int64 x ∧ int64 x ≤ maxInt64 := by
  unfold maxInt64 int64
  rw [Int.bmod_def]
  omega

/-- In range nothing wraps. -/
theorem int64_of_range {x : Int} (h₁ : -maxInt64 ≤ x) (h₂ : x ≤ maxInt64) : int64 x = x := by
  unfold maxInt64 at h₁ h₂
  unfold int64
  rw [Int.bmod_def]
  omega

/-- Above the range something does. -/
theorem int64_ne_of_gt {x : Int} (h : maxInt64 < x) : int64 x ≠ x := by
  unfold maxInt64 at h
  unfold int64
  rw [Int.bmod_def]
  omega

/-- The wrap that a sum of two in-range values can make upwards. -/
theorem int64_of_overflow {x : Int} (h₁ : maxInt64 < x) (h₂ : x ≤ 2 * maxInt64) :
    int64 x < 0 := by
  unfold maxInt64 at h₁ h₂
  unfold int64
  rw [Int.bmod_def]
  omega

end OcuFilestore
