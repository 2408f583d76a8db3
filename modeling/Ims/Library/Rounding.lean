import Mathlib.Data.Rat.Floor
import Mathlib.Algebra.Order.Floor.Ring
import Mathlib.Algebra.Order.Field.Basic
import Mathlib.Tactic.Linarith
import Mathlib.Tactic.FieldSimp
import Mathlib.Tactic.Positivity

namespace Ims.Library.Rounding

/-- The nearest integer, and of two at the same distance the even one. -/
def roundHalfEven (x : Rat) : Int :=
  if Int.fract x < 1 / 2 then ⌊x⌋
  else if 1 / 2 < Int.fract x then ⌊x⌋ + 1
  else if ⌊x⌋ % 2 = 0 then ⌊x⌋ else ⌊x⌋ + 1

def roundDigits (digits : Nat) (x : Rat) : Rat := roundHalfEven (x * 10 ^ digits) / 10 ^ digits

theorem abs_roundHalfEven_sub (x : Rat) : |(roundHalfEven x : Rat) - x| ≤ 1 / 2 := by
  have hx := Int.floor_add_fract x
  have hlow := Int.fract_nonneg x
  have hhigh := Int.fract_lt_one x
  rw [abs_le]
  unfold roundHalfEven
  split_ifs <;> push_cast <;> constructor <;> linarith

theorem roundHalfEven_intCast (n : Int) : roundHalfEven n = n := by
  simp [roundHalfEven]

theorem floor_le_roundHalfEven (x : Rat) : ⌊x⌋ ≤ roundHalfEven x := by
  unfold roundHalfEven
  split_ifs <;> omega

theorem roundHalfEven_le (x : Rat) : roundHalfEven x ≤ ⌊x⌋ + 1 := by
  unfold roundHalfEven
  split_ifs <;> omega

theorem roundHalfEven_mono {x y : Rat} (h : x ≤ y) : roundHalfEven x ≤ roundHalfEven y := by
  rcases (Int.floor_mono h).lt_or_eq with hlt | heq
  · calc roundHalfEven x ≤ ⌊x⌋ + 1 := roundHalfEven_le x
      _ ≤ ⌊y⌋ := hlt
      _ ≤ roundHalfEven y := floor_le_roundHalfEven y
  · have hfract : Int.fract x ≤ Int.fract y := by
      rw [Int.fract, Int.fract, heq]
      linarith
    unfold roundHalfEven
    rw [heq]
    split_ifs <;> first | omega | linarith

theorem abs_roundDigits_sub (digits : Nat) (x : Rat) :
    |roundDigits digits x - x| ≤ 1 / (2 * 10 ^ digits) := by
  have hpos : (0 : Rat) < 10 ^ digits := by positivity
  have hnear := abs_roundHalfEven_sub (x * 10 ^ digits)
  have hscale : roundDigits digits x - x =
      (roundHalfEven (x * 10 ^ digits) - x * 10 ^ digits) / 10 ^ digits := by
    rw [roundDigits, sub_div, mul_div_cancel_right₀ _ hpos.ne']
  rw [hscale, abs_div, abs_of_pos hpos, div_le_iff₀ hpos]
  calc _ ≤ 1 / 2 := hnear
    _ = 1 / (2 * 10 ^ digits) * 10 ^ digits := by field_simp

theorem roundDigits_mono (digits : Nat) {x y : Rat} (h : x ≤ y) :
    roundDigits digits x ≤ roundDigits digits y := by
  have hpos : (0 : Rat) < 10 ^ digits := by positivity
  have hscale := roundHalfEven_mono (mul_le_mul_of_nonneg_right h hpos.le)
  exact div_le_div_of_nonneg_right (Int.cast_le.mpr hscale) hpos.le

theorem roundDigits_intCast (digits : Nat) (n : Int) : roundDigits digits n = n := by
  have hpos : (0 : Rat) < 10 ^ digits := by positivity
  have hcast : (n : Rat) * 10 ^ digits = ((n * 10 ^ digits : Int) : Rat) := by push_cast; rfl
  rw [roundDigits, hcast, roundHalfEven_intCast, ← hcast, mul_div_cancel_right₀ _ hpos.ne']

/-- Rates, rounded and multiplied out again, miss the sum of what they are of by
half a unit in the last place each. -/
theorem abs_sum_rates_sub {interval : Rat} (h : interval ≠ 0) (digits : Nat) (windows : List Int) :
    |(windows.map fun w : Int => interval * roundDigits digits (w / interval)).sum - windows.sum| ≤
      windows.length * (|interval| * (1 / (2 * 10 ^ digits))) := by
  induction windows with
  | nil => simp
  | cons w windows ih =>
      have hrate : interval * roundDigits digits (w / interval) - w =
          interval * (roundDigits digits (w / interval) - w / interval) := by
        rw [mul_sub, mul_div_cancel₀ _ h]
      have hone : |interval * roundDigits digits (w / interval) - w| ≤
          |interval| * (1 / (2 * 10 ^ digits)) := by
        rw [hrate, abs_mul]
        exact mul_le_mul_of_nonneg_left (abs_roundDigits_sub digits _) (abs_nonneg interval)
      rw [List.map_cons, List.sum_cons, List.sum_cons, List.length_cons, Int.cast_add, Nat.cast_add,
        Nat.cast_one, add_sub_add_comm, add_mul, one_mul, add_comm (_ * _)]
      exact (abs_add_le _ _).trans (add_le_add hone ih)

end Ims.Library.Rounding
