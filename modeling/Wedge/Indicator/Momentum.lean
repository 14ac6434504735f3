-- The relative strength index of the indicators (`indicator/momentum/rsi.h`). It goes
-- around a cycle of 24 candles, with a stream of its own for each place of the cycle.
import Wedge.Common
import Wedge.Indicator.Average
import Wedge.Indicator.Changes
import Wedge.Lib.Rings

namespace wedge.momentum

open rings

abbrev kCycleSize : ℕ := 24

/-- `count_` is an `int` and counts the candles. -/
structure RelativeStrengthIndex where
  period_ : ℕ
  count_ : ℕ := 0
  last_value_ : Vector ℚ kCycleSize
  average_gain_ : Vector ExponentialMovingAverageAlgo kCycleSize
  average_loss_ : Vector ExponentialMovingAverageAlgo kCycleSize

/-- The place of a count in the cycle. -/
def cycle_index (count : ℕ) : Fin kCycleSize := ⟨count % kCycleSize, Nat.mod_lt _ (by decide)⟩

namespace RelativeStrengthIndex

def make (period : ℕ) : RelativeStrengthIndex :=
  { period_ := period
    last_value_ := Vector.replicate kCycleSize 0
    average_gain_ := Vector.replicate kCycleSize (.make period)
    average_loss_ := Vector.replicate kCycleSize (.make period) }

/-- One gain and one loss for the averages of a place. -/
def push (index : Fin kCycleSize) (gain loss : ℚ) (r : RelativeStrengthIndex) :
    RelativeStrengthIndex :=
  { r with
    average_gain_ := r.average_gain_.set index (r.average_gain_[index].update gain)
    average_loss_ := r.average_loss_.set index (r.average_loss_[index].update loss) }

/-- The first candle of a place has no candle before it. -/
def update (candle : Candle) (r : RelativeStrengthIndex) : RelativeStrengthIndex :=
  let index := cycle_index r.count_
  let r := { r with count_ := r.count_ + 1 }
  if r.count_ ≤ kCycleSize then
    { r with last_value_ := r.last_value_.set index candle.close_price }
  else
    let gain := candle.close_price - r.last_value_[index]
    let r := { r with last_value_ := r.last_value_.set index candle.close_price }
    if 0 < gain then r.push index gain 0
    else if gain < 0 then r.push index 0 (-gain)
    else r.push index 0 0

def value (r : RelativeStrengthIndex) : ℚ :=
  let index := cycle_index r.count_
  let average_gain_value := r.average_gain_[index].value
  let average_loss_value := r.average_loss_[index].value
  let rs := average_gain_value / (average_loss_value + 1 / 100000)
  100 - 100 / (1 + rs)

def period (r : RelativeStrengthIndex) : ℕ := r.period_ * kCycleSize

/-! ## The streams -/

/-- The indicator after some candles. -/
def after (period : ℕ) (candles : List Candle) : RelativeStrengthIndex :=
  candles.foldl (fun r candle => r.update candle) (make period)

/-- The averages of the gains and of the losses between some closes. -/
def gain_average (period : ℕ) (closes : List ℚ) : ℚ := ema period ((changes closes).map gain)

def loss_average (period : ℕ) (closes : List ℚ) : ℚ := ema period ((changes closes).map loss)

/-- Each place has the last close of its phase, once there is one. -/
def Lasts (closes : List ℚ) (last_value : Vector ℚ kCycleSize) : Prop :=
  ∀ (i : Fin kCycleSize) (close_price : ℚ),
    (phase kCycleSize i closes).getLast? = some close_price → last_value[i] = close_price

/-- Each place has the average over the changes of its phase, taken as gains or as losses. -/
def Averages (part : ℚ → ℚ) (period : ℕ) (closes : List ℚ)
    (average : Vector ExponentialMovingAverageAlgo kCycleSize) : Prop :=
  ∀ i : Fin kCycleSize, average[i] =
    .averages period ((changes (phase kCycleSize i closes)).map part)

structure Holds (period : ℕ) (closes : List ℚ) (r : RelativeStrengthIndex) : Prop where
  count : r.count_ = closes.length
  last : Lasts closes r.last_value_
  gains : Averages gain period closes r.average_gain_
  losses : Averages loss period closes r.average_loss_

theorem Averages.start (part : ℚ → ℚ) (period : ℕ) :
    Averages part period [] (Vector.replicate kCycleSize (.make period)) := by
  intro i
  simp [phase, changes, ExponentialMovingAverageAlgo.averages_nil]

theorem Holds.start (period : ℕ) : Holds period [] (make period) where
  count := rfl
  last := fun i close_price h => by simp [phase] at h
  gains := .start gain period
  losses := .start loss period

theorem get_set {α : Type} (v : Vector α kCycleSize) (i j : Fin kCycleSize) (x : α) :
    (v.set i x)[j] = if j = i then x else v[j] := by
  simp only [Fin.getElem_fin, Vector.getElem_set, Fin.val_inj, eq_comm]

theorem update_first {r : RelativeStrengthIndex} {i : Fin kCycleSize}
    (hi : cycle_index r.count_ = i) (h : r.count_ < kCycleSize) (candle : Candle) :
    r.update candle =
      { r with
        count_ := r.count_ + 1
        last_value_ := r.last_value_.set i candle.close_price } := by
  subst hi
  exact if_pos h

/-- After the first cycle an update pushes the gain and the loss of a change. -/
theorem update_later {r : RelativeStrengthIndex} {i : Fin kCycleSize}
    (hi : cycle_index r.count_ = i) (h : kCycleSize ≤ r.count_) (candle : Candle) :
    r.update candle =
      push i (gain (candle.close_price - r.last_value_[i]))
        (loss (candle.close_price - r.last_value_[i]))
        { r with
          count_ := r.count_ + 1
          last_value_ := r.last_value_.set i candle.close_price } := by
  subst hi
  have hlater : ¬ r.count_ + 1 ≤ kCycleSize := by omega
  unfold update gain loss
  dsimp only
  rw [if_neg hlater]
  split_ifs <;> first | rfl | linarith

/-- The place of a new candle is the only one that it changes. -/
theorem phase_update (closes : List ℚ) (close_price : ℚ) (i : Fin kCycleSize) :
    phase kCycleSize i (closes ++ [close_price]) =
      if i = cycle_index closes.length then phase kCycleSize i closes ++ [close_price]
      else phase kCycleSize i closes := by
  have hplace : i = cycle_index closes.length ↔ closes.length % kCycleSize = i :=
    ⟨fun h => (congrArg Fin.val h).symm, fun h => Fin.ext h.symm⟩
  rw [phase_concat]
  simp only [hplace]
  split_ifs
  · rfl
  · exact List.append_nil _

theorem Lasts.set {closes : List ℚ} {last_value : Vector ℚ kCycleSize}
    (h : Lasts closes last_value) (close_price : ℚ) :
    Lasts (closes ++ [close_price])
      (last_value.set (cycle_index closes.length) close_price) := by
  intro i close_price' hlast
  rw [phase_update] at hlast
  rw [get_set]
  split_ifs with hi
  · rw [if_pos hi, List.getLast?_concat] at hlast
    exact Option.some.inj hlast
  · rw [if_neg hi] at hlast
    exact h i close_price' hlast

section averages

variable {part : ℚ → ℚ} {period : ℕ} {closes : List ℚ}
  {average : Vector ExponentialMovingAverageAlgo kCycleSize}

/-- The first close of a phase is no change. -/
theorem Averages.first (h : Averages part period closes average)
    (hfirst : closes.length < kCycleSize) (close_price : ℚ) :
    Averages part period (closes ++ [close_price]) average := by
  have hnew : phase kCycleSize (cycle_index closes.length) closes = [] :=
    (phase_eq_nil_iff (cycle_index closes.length).isLt closes).mpr (Nat.mod_eq_of_lt hfirst).ge
  intro i
  rw [phase_update]
  split_ifs with hi
  · rw [h i, hi, hnew]
    rfl
  · exact h i

/-- A later close of a phase is one more change. -/
theorem Averages.later {last_value : Vector ℚ kCycleSize}
    (h : Averages part period closes average) (hlast : Lasts closes last_value)
    (hlater : kCycleSize ≤ closes.length) (close_price : ℚ) :
    Averages part period (closes ++ [close_price])
      (average.set (cycle_index closes.length) (average[cycle_index closes.length].update
        (part (close_price - last_value[cycle_index closes.length])))) := by
  have hold : phase kCycleSize (cycle_index closes.length) closes ≠ [] := fun hnil =>
    absurd ((phase_eq_nil_iff (cycle_index closes.length).isLt closes).mp hnil)
      (not_le.mpr ((cycle_index closes.length).isLt.trans_le hlater))
  obtain ⟨prices, last_price, hphase⟩ := (List.eq_nil_or_concat _).resolve_left hold
  rw [List.concat_eq_append] at hphase
  have hprice : last_value[cycle_index closes.length] = last_price :=
    hlast _ _ (by rw [hphase, List.getLast?_concat])
  intro i
  rw [get_set, phase_update]
  split_ifs with hi
  · rw [hi, hphase, changes_concat, List.map_append, List.map_singleton, hprice, h, hphase,
      ExponentialMovingAverageAlgo.update_averages]
  · exact h i

end averages

/-- An update adds the close of its candle to the phase of its place. -/
theorem Holds.update {period : ℕ} {closes : List ℚ} {r : RelativeStrengthIndex}
    (h : Holds period closes r) (candle : Candle) :
    Holds period (closes ++ [candle.close_price]) (r.update candle) := by
  have hi : cycle_index r.count_ = cycle_index closes.length := congrArg cycle_index h.count
  have hcount : r.count_ + 1 = (closes ++ [candle.close_price]).length := by simp [h.count]
  rcases Nat.lt_or_ge closes.length kCycleSize with hfirst | hlater
  · rw [update_first hi (h.count.trans_lt hfirst)]
    exact ⟨hcount, h.last.set _, h.gains.first hfirst _, h.losses.first hfirst _⟩
  · rw [update_later hi (hlater.trans_eq h.count.symm)]
    exact ⟨hcount, h.last.set _, h.gains.later h.last hlater _, h.losses.later h.last hlater _⟩

theorem holds_after (period : ℕ) (candles : List Candle) :
    Holds period (candles.map Candle.close_price) (after period candles) := by
  induction candles using List.reverseRecOn with
  | nil => exact Holds.start period
  | append_singleton candles candle ih =>
    unfold after at ih ⊢
    rw [List.foldl_concat, List.map_append, List.map_singleton]
    exact ih.update candle

/-! ## The value -/

/-- The relative strength index of some closes. -/
def index_of (period : ℕ) (closes : List ℚ) : ℚ :=
  100 - 100 / (1 + gain_average period closes / (loss_average period closes + 1 / 100000))

/-- The closes at the positions with the remainder of `n`. -/
def phase_of (n : ℕ) (candles : List Candle) : List ℚ :=
  phase kCycleSize (n % kCycleSize) (candles.map Candle.close_price)

/-- The averages that `value` reads are those of the place that comes next. -/
theorem averages_after (period : ℕ) (candles : List Candle) :
    let r := after period candles
    r.average_gain_[cycle_index r.count_].value =
        gain_average period (phase_of candles.length candles) ∧
      r.average_loss_[cycle_index r.count_].value =
        loss_average period (phase_of candles.length candles) := by
  have h := holds_after period candles
  have hplace : ((cycle_index (after period candles).count_ : Fin kCycleSize) : ℕ) =
      candles.length % kCycleSize := by
    rw [h.count, List.length_map]
    rfl
  dsimp only
  rw [h.gains, h.losses, hplace]
  exact ⟨rfl, rfl⟩

theorem value_after (period : ℕ) (candles : List Candle) :
    (after period candles).value = index_of period (phase_of candles.length candles) := by
  obtain ⟨hgain, hloss⟩ := averages_after period candles
  unfold value
  dsimp only
  rw [hgain, hloss]
  rfl

theorem gain_average_nonneg {period : ℕ} (hp : 1 ≤ period) (closes : List ℚ) :
    0 ≤ gain_average period closes := by
  apply ema_nonneg hp
  intro sample h
  obtain ⟨change, -, rfl⟩ := List.mem_map.mp h
  exact gain_nonneg change

theorem loss_average_nonneg {period : ℕ} (hp : 1 ≤ period) (closes : List ℚ) :
    0 ≤ loss_average period closes := by
  apply ema_nonneg hp
  intro sample h
  obtain ⟨change, -, rfl⟩ := List.mem_map.mp h
  exact loss_nonneg change

theorem divisors_pos {period : ℕ} (hp : 1 ≤ period) (closes : List ℚ) :
    0 < loss_average period closes + 1 / 100000 ∧
      0 < 1 + gain_average period closes / (loss_average period closes + 1 / 100000) := by
  have hgain := gain_average_nonneg hp closes
  have hloss := loss_average_nonneg hp closes
  refine ⟨by linarith, ?_⟩
  positivity

theorem index_of_range {period : ℕ} (hp : 1 ≤ period) (closes : List ℚ) :
    0 ≤ index_of period closes ∧ index_of period closes < 100 := by
  have hgain := gain_average_nonneg hp closes
  obtain ⟨hloss, hpos⟩ := divisors_pos hp closes
  have hrs : 0 ≤ gain_average period closes / (loss_average period closes + 1 / 100000) :=
    div_nonneg hgain hloss.le
  have hle : 100 / (1 + gain_average period closes / (loss_average period closes + 1 / 100000)) ≤
      100 := by
    rw [div_le_iff₀ hpos]
    linarith
  have hgt : 0 < 100 /
      (1 + gain_average period closes / (loss_average period closes + 1 / 100000)) :=
    div_pos (by norm_num) hpos
  unfold index_of
  exact ⟨by linarith, by linarith⟩

/-- Two indices are equal when the ratios of their averages are. -/
theorem index_of_eq_iff {period : ℕ} (hp : 1 ≤ period) (closes closes' : List ℚ) :
    index_of period closes = index_of period closes' ↔
      gain_average period closes * (loss_average period closes' + 1 / 100000) =
        gain_average period closes' * (loss_average period closes + 1 / 100000) := by
  obtain ⟨hloss, hpos⟩ := divisors_pos hp closes
  obtain ⟨hloss', hpos'⟩ := divisors_pos hp closes'
  unfold index_of
  rw [sub_right_inj, div_eq_div_iff hpos.ne' hpos'.ne', mul_right_inj' (by norm_num),
    add_right_inj, eq_comm, div_eq_div_iff hloss.ne' hloss'.ne']

/-- After the `n`-th candle the value is the index of the candles `n`, `n - 24`, and so on back if
and only if the candles `n - 23`, `n - 47`, and so on back, which `value` reads, have the same ratio
of the two averages. -/
theorem the_value_is_of_the_latest_phase_iff {period : ℕ} (hp : 1 ≤ period)
    (candles : List Candle) :
    let latest := phase_of (candles.length - 1) candles
    let next := phase_of candles.length candles
    (after period candles).value =
        100 - 100 / (1 + gain_average period latest / (loss_average period latest + 1 / 100000)) ↔
      gain_average period next * (loss_average period latest + 1 / 100000) =
        gain_average period latest * (loss_average period next + 1 / 100000) := by
  intro latest next
  rw [value_after]
  exact index_of_eq_iff hp next latest

/-- Every phase rises from 100 to 110. -/
def a_rise : List Candle :=
  List.replicate kCycleSize (flat_candle 100) ++ List.replicate kCycleSize (flat_candle 110)

/-- After the rise of every phase the value is the index of the latest one. -/
theorem a_rise_of_all_phases_is_seen :
    (after 14 a_rise).value =
      100 - 100 / (1 + gain_average 14 (phase_of (a_rise.length - 1) a_rise) /
        (loss_average 14 (phase_of (a_rise.length - 1) a_rise) + 1 / 100000)) ∧
    0 < (after 14 a_rise).value := by
  have h := the_value_is_of_the_latest_phase_iff (by decide : 1 ≤ 14) a_rise
  exact ⟨h.mpr (by decide +kernel), by decide +kernel⟩

/-- A cycle at 100, and then a candle at 110. -/
def a_jump : List Candle := List.replicate kCycleSize (flat_candle 100) ++ [flat_candle 110]

/-- The value stays 0 after the jump, and the index of the phase that jumped is close to 100. -/
theorem a_jump_is_not_seen :
    (after 14 a_jump).value = 0 ∧
      100 - 100 / (1 + gain_average 14 (phase_of (a_jump.length - 1) a_jump) /
        (loss_average 14 (phase_of (a_jump.length - 1) a_jump) + 1 / 100000)) =
          100 - 100 / 1000001 := by
  constructor
  · decide +kernel
  · decide +kernel

/-- The value is a percentage, its divisors are positive, and it depends on one phase only. -/
theorem the_phases_are_apart {period : ℕ} (hp : 1 ≤ period) (candles : List Candle) :
    let r := after period candles
    let average_gain_value := r.average_gain_[cycle_index r.count_].value
    let average_loss_value := r.average_loss_[cycle_index r.count_].value
    (0 < average_loss_value + 1 / 100000 ∧
      0 < 1 + average_gain_value / (average_loss_value + 1 / 100000) ∧
      0 ≤ r.value ∧ r.value < 100) ∧
    ∀ candles' : List Candle, candles.length = candles'.length →
      (∀ k, k % kCycleSize = candles.length % kCycleSize →
        (candles.map Candle.close_price)[k]? = (candles'.map Candle.close_price)[k]?) →
      r.value = (after period candles').value := by
  obtain ⟨hgain, hloss⟩ := averages_after period candles
  dsimp only
  rw [hgain, hloss, value_after]
  have hrange := index_of_range hp (phase_of candles.length candles)
  have hdivisors := divisors_pos hp (phase_of candles.length candles)
  refine ⟨⟨hdivisors.1, hdivisors.2, hrange.1, hrange.2⟩, fun candles' hlength hagree => ?_⟩
  rw [value_after, ← hlength]
  exact congrArg (index_of period) (phase_congr (by simpa using hlength) hagree)

/-- The same cycle, and then a candle at 90. -/
def a_fall : List Candle := List.replicate kCycleSize (flat_candle 100) ++ [flat_candle 90]

/-- The last candles are of one phase, and the value is of another. -/
theorem a_jump_and_a_fall :
    0 ≤ (after 14 a_jump).value ∧ (after 14 a_jump).value < 100 ∧
      (after 14 a_jump).value = (after 14 a_fall).value := by
  have hagree : ∀ k, k % kCycleSize = a_jump.length % kCycleSize →
      (a_jump.map Candle.close_price)[k]? = (a_fall.map Candle.close_price)[k]? := by
    intro k hk
    have hne : k ≠ kCycleSize := by
      rintro rfl
      exact absurd hk (by decide)
    unfold a_jump a_fall
    simp only [List.map_append, List.map_replicate, List.map_cons, List.map_nil]
    rcases Nat.lt_or_gt_of_ne hne with hlt | hgt
    · rw [List.getElem?_append_left (by simpa using hlt),
        List.getElem?_append_left (by simpa using hlt)]
    · rw [List.getElem?_eq_none (by simpa using hgt), List.getElem?_eq_none (by simpa using hgt)]
  have h := the_phases_are_apart (by decide : 1 ≤ 14) a_jump
  exact ⟨h.1.2.2.1, h.1.2.2.2, h.2 a_fall rfl hagree⟩

end RelativeStrengthIndex

end wedge.momentum
