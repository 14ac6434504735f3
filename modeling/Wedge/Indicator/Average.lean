-- The exponential moving average (`indicator/average/ema_algo.h`).
import Mathlib

namespace wedge

structure ExponentialMovingAverageAlgo where
  alpha_ : ℚ
  value_ : ℚ
  has_value_ : Bool
  deriving DecidableEq, Repr

namespace ExponentialMovingAverageAlgo

def make (period : ℕ) : ExponentialMovingAverageAlgo :=
  { alpha_ := 2 / (period + 1), value_ := 0, has_value_ := false }

def update (price : ℚ) (e : ExponentialMovingAverageAlgo) : ExponentialMovingAverageAlgo :=
  if e.has_value_ = false then { e with has_value_ := true, value_ := price }
  else { e with value_ := price * e.alpha_ + (1 - e.alpha_) * e.value_ }

def value (e : ExponentialMovingAverageAlgo) : ℚ := e.value_

end ExponentialMovingAverageAlgo

/-! ## The average of a list -/

/-- The weight of the newest sample. -/
def ema_alpha (period : ℕ) : ℚ := 2 / (period + 1)

/-- The exponential moving average of some samples. The first one is the seed. -/
def ema (period : ℕ) : List ℚ → ℚ
  | [] => 0
  | seed :: samples => samples.foldl
      (fun average sample => sample * ema_alpha period + (1 - ema_alpha period) * average) seed

theorem ema_concat {period : ℕ} {samples : List ℚ} (h : samples ≠ []) (sample : ℚ) :
    ema period (samples ++ [sample]) =
      sample * ema_alpha period + (1 - ema_alpha period) * ema period samples := by
  cases samples with
  | nil => exact absurd rfl h
  | cons seed samples =>
    simp only [ema, List.cons_append, List.foldl_concat]

theorem ema_alpha_pos (period : ℕ) : 0 < ema_alpha period := by
  unfold ema_alpha
  positivity

theorem ema_alpha_le_one {period : ℕ} (hp : 1 ≤ period) : ema_alpha period ≤ 1 := by
  have hp' : (1 : ℚ) ≤ period := by exact_mod_cast hp
  unfold ema_alpha
  rw [div_le_one (by linarith)]
  linarith

/-- Each step is a convex combination, so an average of samples that are not negative is not
negative. -/
theorem ema_nonneg {period : ℕ} (hp : 1 ≤ period) {samples : List ℚ}
    (h : ∀ sample ∈ samples, 0 ≤ sample) : 0 ≤ ema period samples := by
  induction samples using List.reverseRecOn with
  | nil => exact le_rfl
  | append_singleton samples sample ih =>
    have hsample : 0 ≤ sample := h sample (by simp)
    have hsamples : 0 ≤ ema period samples := ih fun x hx => h x (List.mem_append_left _ hx)
    by_cases hnil : samples = []
    · subst hnil
      exact hsample
    · have hpos := ema_alpha_pos period
      have hone := ema_alpha_le_one hp
      rw [ema_concat hnil]
      apply add_nonneg
      · exact mul_nonneg hsample hpos.le
      · exact mul_nonneg (by linarith) hsamples

namespace ExponentialMovingAverageAlgo

/-- The average after some samples. -/
def averages (period : ℕ) (samples : List ℚ) : ExponentialMovingAverageAlgo :=
  { alpha_ := ema_alpha period, value_ := ema period samples, has_value_ := !samples.isEmpty }

theorem averages_nil (period : ℕ) : averages period [] = make period := rfl

theorem update_averages (period : ℕ) (samples : List ℚ) (sample : ℚ) :
    (averages period samples).update sample = averages period (samples ++ [sample]) := by
  unfold update averages
  by_cases h : samples = []
  · simp [h, ema]
  · simp [ema_concat h, List.isEmpty_eq_false_iff.mpr h]

end ExponentialMovingAverageAlgo

end wedge
