-- The successive changes of a price, and the gains and losses that the two
-- indicators of relative strength take from them.
import Mathlib

namespace wedge

/-- The successive changes of a price. -/
def changes : List ℚ → List ℚ
  | last_price :: price :: prices => (price - last_price) :: changes (price :: prices)
  | _ => []

theorem length_changes : ∀ prices : List ℚ, (changes prices).length = prices.length - 1
  | [] => rfl
  | [_] => rfl
  | _ :: price :: prices => by
    rw [changes, List.length_cons, length_changes (price :: prices)]
    rfl

theorem changes_concat (prices : List ℚ) (last_price price : ℚ) :
    changes (prices ++ [last_price] ++ [price]) =
      changes (prices ++ [last_price]) ++ [price - last_price] := by
  induction prices with
  | nil => rfl
  | cons first prices ih =>
    cases prices with
    | nil => rfl
    | cons second prices => exact congrArg (List.cons (second - first)) ih

/-- A change as a gain. -/
def gain (change : ℚ) : ℚ := if 0 < change then change else 0

/-- A change as a loss. -/
def loss (change : ℚ) : ℚ := if change < 0 then -change else 0

theorem gain_nonneg (change : ℚ) : 0 ≤ gain change := by
  unfold gain
  split <;> linarith

theorem loss_nonneg (change : ℚ) : 0 ≤ loss change := by
  unfold loss
  split <;> linarith

end wedge
