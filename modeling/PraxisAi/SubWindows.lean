import PraxisAi.SaturatingArithmetic

/-! # Sub-window arithmetic

`token_rate_limit/valkey/window.rs`. A window is counted in sub-windows; the oldest one is only
partly inside the window and counts in full. -/
namespace SubWindows

open SaturatingArithmetic

def subWindows : ℕ := 60

def minBucketMs : ℕ := 1000

def bucketMs (windowMs : ℕ) : ℕ := max ((windowMs + (subWindows - 1)) / subWindows) minBucketMs

def bucketIndex (atMs bucketMs : ℕ) : ℕ := atMs / max bucketMs 1

structure BucketRange where
  first : ℕ
  count : ℕ
  deriving DecidableEq

/-- The sub-windows from the one of `now - window` to that of `now`. -/
def BucketRange.covering (nowMs windowMs : ℕ) : BucketRange :=
  let width := bucketMs windowMs
  let first := bucketIndex (nowMs - windowMs) width
  ⟨first, bucketIndex nowMs width - first + 1⟩

def BucketRange.indexes (range : BucketRange) : List ℕ :=
  List.range' range.first (satAdd u64Max range.first range.count - range.first)

def retryAfterMs (nowMs windowMs oldestNonEmpty : ℕ) : ℕ :=
  let width := bucketMs windowMs
  let leavesAt := min (min (min (oldestNonEmpty + 1) u64Max * width) u64Max + windowMs) u64Max
  max (leavesAt - nowMs) 1

theorem bucketMs_pos (windowMs : ℕ) : 0 < bucketMs windowMs :=
  lt_of_lt_of_le (by decide) (le_max_right _ _)

theorem bucketMs_le {windowMs : ℕ} (h : windowMs ≤ u64Max) : bucketMs windowMs ≤ u64Max := by
  simp only [bucketMs, subWindows, minBucketMs, u64Max] at *
  omega

theorem bucketIndex_eq {w : ℕ} (hw : 0 < w) (a : ℕ) : bucketIndex a w = a / w := by
  rw [bucketIndex, max_eq_left hw]

theorem lt_of_bucketIndex_eq {w a a' : ℕ} (hw : 0 < w) (h : bucketIndex a w = bucketIndex a' w) :
    a' < a + w := by
  rw [bucketIndex_eq hw, bucketIndex_eq hw] at h
  have ha := Nat.div_mul_le_self a w
  have ha' := Nat.lt_div_mul_add hw (a := a')
  rw [← h] at ha'
  omega

theorem bucketIndex_lt {nowMs windowMs : ℕ} (h : nowMs ≤ u64Max) :
    bucketIndex nowMs (bucketMs windowMs) < u64Max := by
  rw [bucketIndex_eq (bucketMs_pos windowMs)]
  have hbig : 1000 ≤ bucketMs windowMs := le_max_right _ _
  refine lt_of_le_of_lt (Nat.div_le_div_left hbig (by decide)) ?_
  simp only [u64Max] at *
  omega

theorem bucketIndex_sub_le (nowMs windowMs : ℕ) :
    bucketIndex (nowMs - windowMs) (bucketMs windowMs) ≤
      bucketIndex nowMs (bucketMs windowMs) := Nat.div_le_div_right (Nat.sub_le _ _)

theorem indexes_covering {nowMs windowMs : ℕ} (h : nowMs ≤ u64Max) :
    (BucketRange.covering nowMs windowMs).indexes =
      List.range' (bucketIndex (nowMs - windowMs) (bucketMs windowMs))
        (bucketIndex nowMs (bucketMs windowMs) + 1 -
          bucketIndex (nowMs - windowMs) (bucketMs windowMs)) := by
  have hmono := bucketIndex_sub_le nowMs windowMs
  have hlast := @bucketIndex_lt nowMs windowMs h
  simp only [BucketRange.indexes, BucketRange.covering, satAdd]
  congr 1
  omega

theorem mem_indexes {nowMs windowMs i : ℕ} (h : nowMs ≤ u64Max) :
    i ∈ (BucketRange.covering nowMs windowMs).indexes ↔
      bucketIndex (nowMs - windowMs) (bucketMs windowMs) ≤ i ∧
        i ≤ bucketIndex nowMs (bucketMs windowMs) := by
  have hmono := bucketIndex_sub_le nowMs windowMs
  rw [indexes_covering h, List.mem_range'_1]
  omega

theorem indexes_nodup (range : BucketRange) : range.indexes.Nodup := List.nodup_range'

theorem covered_of_inside {nowMs windowMs a : ℕ} (ha : a ≤ nowMs) (h : nowMs < a + windowMs) :
    bucketIndex (nowMs - windowMs) (bucketMs windowMs) ≤ bucketIndex a (bucketMs windowMs) ∧
      bucketIndex a (bucketMs windowMs) ≤ bucketIndex nowMs (bucketMs windowMs) :=
  ⟨Nat.div_le_div_right (by omega), Nat.div_le_div_right ha⟩

theorem inside_of_covered {nowMs windowMs a : ℕ}
    (h : bucketIndex (nowMs - windowMs) (bucketMs windowMs) ≤
      bucketIndex a (bucketMs windowMs)) : nowMs < a + windowMs + bucketMs windowMs := by
  have hw := bucketMs_pos windowMs
  rw [bucketIndex_eq hw, bucketIndex_eq hw] at h
  have hle := Nat.div_mul_le_self a (bucketMs windowMs)
  have hlt := Nat.lt_div_mul_add hw (a := nowMs - windowMs)
  have hmul := Nat.mul_le_mul_right (bucketMs windowMs) h
  omega

end SubWindows
