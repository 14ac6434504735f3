-- The value of the range indicator. Its two rings hold the newest candles, and the
-- zeros of the constructor until there are enough of them.
import Wedge.Indicator.Range
import Wedge.Lib.Rings

namespace wedge

open rings

namespace Range

/-! ## The scan -/

theorem apply_greater {vector : List ℚ} (h : vector ≠ []) :
    vector.max? = some (apply vector fun a b => a > b) := by
  cases vector with
  | nil => exact absurd rfl h
  | cons x vector =>
    have hstep : (fun result x : ℚ => if decide (x > result) = true then x else result) = max := by
      funext result x
      simp only [decide_eq_true_eq, gt_iff_lt, max_def_lt]
    rw [List.max?_cons', apply, hstep]
    rfl

theorem apply_less {vector : List ℚ} (h : vector ≠ []) :
    vector.min? = some (apply vector fun a b => a < b) := by
  cases vector with
  | nil => exact absurd rfl h
  | cons x vector =>
    have hstep : (fun result x : ℚ => if decide (x < result) = true then x else result) = min := by
      funext result x
      rw [min_comm, min_def_lt]
      simp only [decide_eq_true_eq]
    rw [List.min?_cons', apply, hstep]
    rfl

/-! ## The rings -/

/-- The indicator after some candles. -/
def after (period : ℕ) (candles : List Candle) : Range :=
  candles.foldl (fun r candle => r.update candle) (make period)

theorem after_concat (period : ℕ) (candles : List Candle) (candle : Candle) :
    after period (candles ++ [candle]) = (after period candles).update candle :=
  List.foldl_concat ..

/-- The two rings go around together. -/
theorem rings_after (period : ℕ) (candles : List Candle) :
    let start : Buffer ℚ := { cells := List.replicate period 0 }
    let r := after period candles
    { cells := r.high_, count := r.count_ } =
        (candles.map Candle.high_price).foldl Buffer.write start ∧
      { cells := r.low_, count := r.count_ } =
        (candles.map Candle.low_price).foldl Buffer.write start ∧
      r.high_.length = period ∧ r.low_.length = period := by
  induction candles using List.reverseRecOn with
  | nil => simp [after, make]
  | append_singleton candles candle ih =>
    obtain ⟨hhigh, hlow, hh, hl⟩ := ih
    simp only [after_concat, List.map_append, List.map_cons, List.map_nil, List.foldl_concat]
    rw [← hhigh, ← hlow]
    refine ⟨rfl, ?_, ?_, ?_⟩
    · simp only [update, Buffer.write, hh, hl]
    · simp only [update, List.length_set, hh]
    · simp only [update, List.length_set, hl]

/-! ## The value -/

/-- A scan of the ring is a scan of the newest entries. -/
theorem max?_of_view {b : Buffer ℚ} {high : ℚ} (h : b.cells.max? = some high) :
    b.view.max? = some high := by
  rw [List.max?_eq_some_iff] at h ⊢
  simpa using h

theorem min?_of_view {b : Buffer ℚ} {low : ℚ} (h : b.cells.min? = some low) :
    b.view.min? = some low := by
  rw [List.min?_eq_some_iff] at h ⊢
  simpa using h

/-- The zeros of the constructor and then the prices: the newest of them, as many as there are
cells. -/
def held (period : ℕ) (prices : List ℚ) : List ℚ :=
  (List.replicate period 0 ++ prices).drop prices.length

theorem view_of_prices {period : ℕ} (hp : 1 ≤ period) (prices : List ℚ) :
    (prices.foldl Buffer.write { cells := List.replicate period (0 : ℚ) }).view =
      held period prices := by
  have hzeros : List.replicate period (0 : ℚ) ≠ [] := by
    simp only [ne_eq, List.replicate_eq_nil_iff]
    omega
  rw [Buffer.view_foldl_write prices hzeros, Buffer.view_start]
  rfl

theorem value_after {period : ℕ} (hp : 1 ≤ period) (candles : List Candle) :
    ∃ high low, (held period (candles.map Candle.high_price)).max? = some high ∧
      (held period (candles.map Candle.low_price)).min? = some low ∧
      (after period candles).value = high - low := by
  obtain ⟨hhigh, hlow, hh, hl⟩ := rings_after period candles
  refine ⟨_, _, ?_, ?_, rfl⟩
  · rw [← view_of_prices hp, ← hhigh]
    exact max?_of_view (apply_greater (List.ne_nil_of_length_pos (hp.trans_eq hh.symm)))
  · rw [← view_of_prices hp, ← hlow]
    exact min?_of_view (apply_less (List.ne_nil_of_length_pos (hp.trans_eq hl.symm)))

/-- With as many candles as cells, every zero is gone. -/
theorem held_of_le {period : ℕ} {prices : List ℚ} (h : period ≤ prices.length) :
    held period prices = prices.rtake period := by
  rw [held, List.drop_append, List.drop_eq_nil_of_le (by simpa using h), List.length_replicate]
  rfl

theorem map_rtake {α β : Type} (f : α → β) (l : List α) (n : ℕ) :
    (l.map f).rtake n = (l.rtake n).map f := by
  simp [List.rtake]

/-- Once the indicator has seen as many candles as its period, its value is the range of the last
ones. -/
theorem the_value_is_the_range_of_the_last_candles {period : ℕ} (hp : 1 ≤ period)
    {candles : List Candle} (hn : period ≤ candles.length) :
    ∃ high low, ((candles.rtake period).map Candle.high_price).max? = some high ∧
      ((candles.rtake period).map Candle.low_price).min? = some low ∧
      (after period candles).value = high - low := by
  have h := value_after hp candles
  rw [held_of_le (by simpa using hn), held_of_le (by simpa using hn), map_rtake, map_rtake] at h
  exact h

/-- Three candles in a ring of two. -/
theorem two_of_three_candles :
    ∃ high low, (([flat_candle (-1), flat_candle 3, flat_candle 2].rtake 2).map
        Candle.high_price).max? = some high ∧
      (([flat_candle (-1), flat_candle 3, flat_candle 2].rtake 2).map
        Candle.low_price).min? = some low ∧
      (after 2 [flat_candle (-1), flat_candle 3, flat_candle 2]).value = high - low :=
  the_value_is_the_range_of_the_last_candles (by decide) (by decide)

end Range

end wedge
