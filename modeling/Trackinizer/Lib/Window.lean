import Mathlib.Data.List.DropRight

namespace Window

variable {β : Type} (n : Nat) (xs ys : List β)

/-- Cutting a window after each chunk is cutting it once at the end. -/
theorem rtake_rtake_append : (xs.rtake n ++ ys).rtake n = (xs ++ ys).rtake n := by
  have hcut : xs.rtake n ++ ys = (xs ++ ys).drop (xs.length - n) := by
    rw [List.rtake, List.drop_append_of_le_length]
    omega
  rw [hcut, List.rtake, List.rtake, List.drop_drop, List.length_drop, List.length_append]
  congr 1
  omega

theorem length_rtake : (xs.rtake n).length = min xs.length n := by
  rw [List.rtake, List.length_drop]
  omega

/-- A window from a place in it is the stream from that place. -/
theorem drop_rtake {offset : Nat} (h : xs.length - n ≤ offset) :
    (xs.rtake n).drop (offset - (xs.length - n)) = xs.drop offset := by
  rw [List.rtake, List.drop_drop]
  congr 1
  omega

/-- Two stretches of a stream that meet are one. -/
theorem slice_append {i j k : Nat} (hij : i ≤ j) (hjk : j ≤ k) :
    (xs.take j).drop i ++ (xs.take k).drop j = (xs.take k).drop i := by
  have hk : k - i = (j - i) + (k - j) := by omega
  rw [List.drop_take, List.drop_take, List.drop_take, hk, List.take_add, List.drop_drop]
  congr 3
  omega

end Window
