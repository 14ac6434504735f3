-- The limit price of the first strategy. It reads the range of the last candles
-- from its first event on, and the zeros of the ring count until there are 24.
import Wedge.Indicator.Window
import Wedge.Strategy2.Strategy001

namespace wedge.strategy2

open backtest2 Range

namespace Strategy001

/-- The strategy after some events. -/
def after (events : List ScheduleTaskEvent) : Strategy001 :=
  events.foldl (fun s event => (s.on_event event).2) from_json

theorem after_eq (events : List ScheduleTaskEvent) :
    after events =
      { k := 1 / 10, range := Range.after 24 (events.map ScheduleTaskEvent.current_candle) } := by
  induction events using List.reverseRecOn with
  | nil => rfl
  | append_singleton events event ih =>
    unfold after at ih ⊢
    rw [List.foldl_concat, ih, List.map_append, List.map_cons, List.map_nil, Range.after_concat]
    rfl

theorem on_event_after (events : List ScheduleTaskEvent) (event : ScheduleTaskEvent) :
    ((after events).on_event event).1 = cancels event.open_order_lists ++ [.NewOrderList (bracket
      (event.current_candle.open_price - (Range.after 24
        ((events ++ [event]).map ScheduleTaskEvent.current_candle)).value * (1 / 10)))] := by
  rw [after_eq, List.map_append, List.map_cons, List.map_nil, Range.after_concat]
  rfl

/-! ## Before there are enough candles -/

theorem held_of_gt {period : ℕ} {prices : List ℚ} (h : prices.length < period) :
    held period prices = List.replicate (period - prices.length) 0 ++ prices := by
  rw [held, List.drop_append_of_le_length (by simpa using h.le), List.drop_replicate]

/-- The zeros are prices of the scan. -/
theorem mem_held {period : ℕ} {prices : List ℚ} (h : prices.length < period) {x : ℚ} :
    x ∈ held period prices ↔ x = 0 ∨ x ∈ prices := by
  have hzeros : period - prices.length ≠ 0 := by omega
  rw [held_of_gt h, List.mem_append, List.mem_replicate]
  exact or_congr (and_iff_right hzeros) Iff.rfl

theorem max?_held {period : ℕ} {prices : List ℚ} {high : ℚ} (h : prices.length < period)
    (hhigh : prices.max? = some high) : (held period prices).max? = some (max 0 high) := by
  rw [List.max?_eq_some_iff] at hhigh ⊢
  simp only [mem_held h]
  refine ⟨?_, fun x hx => ?_⟩
  · rcases max_choice 0 high with heq | heq
    · exact Or.inl heq
    · exact Or.inr (heq.symm ▸ hhigh.1)
  · rcases hx with rfl | hx
    · exact le_max_left 0 high
    · exact (hhigh.2 x hx).trans (le_max_right 0 high)

theorem min?_held {period : ℕ} {prices : List ℚ} {low : ℚ} (h : prices.length < period)
    (hlow : prices.min? = some low) : (held period prices).min? = some (min 0 low) := by
  rw [List.min?_eq_some_iff] at hlow ⊢
  simp only [mem_held h]
  refine ⟨?_, fun x hx => ?_⟩
  · rcases min_choice 0 low with heq | heq
    · exact Or.inl heq
    · exact Or.inr (heq.symm ▸ hlow.1)
  · rcases hx with rfl | hx
    · exact min_le_left 0 low
    · exact (min_le_right 0 low).trans (hlow.2 x hx)

/-- The zeros widen the range, except when it reaches to both sides of them. -/
theorem range_with_zero (high low : ℚ) :
    max 0 high - min 0 low = high - low ↔ 0 ≤ high ∧ low ≤ 0 := by
  have hhigh := le_max_right 0 high
  have hlow := min_le_right 0 low
  constructor
  · intro h
    exact ⟨max_eq_right_iff.mp (by linarith), min_eq_right_iff.mp (by linarith)⟩
  · rintro ⟨hh, hl⟩
    rw [max_eq_right hh, min_eq_right hl]

theorem bracket_inj {p q : ℚ} : bracket p = bracket q ↔ p = q := by
  constructor
  · intro h
    simp only [bracket, NewOrderList.NewOtocoOrderList.injEq, NewOrder.NewLimitOrder.injEq] at h
    exact h.1.2.1
  · exact congrArg bracket

/-- An event's order is priced from the candles so far, the last 24 at most, if and only if there
are 24 of them or their prices lie on both sides of 0. -/
theorem the_limit_price_is_of_the_candles_iff (events : List ScheduleTaskEvent)
    (event : ScheduleTaskEvent) :
    ∃ high low,
      ((((events ++ [event]).map ScheduleTaskEvent.current_candle).rtake 24).map
        Candle.high_price).max? = some high ∧
      ((((events ++ [event]).map ScheduleTaskEvent.current_candle).rtake 24).map
        Candle.low_price).min? = some low ∧
      (((after events).on_event event).1 =
          cancels event.open_order_lists ++ [.NewOrderList (bracket
            (event.current_candle.open_price - 1 / 10 * (high - low)))] ↔
        24 ≤ (events ++ [event]).length ∨ (0 ≤ high ∧ low ≤ 0)) := by
  rw [on_event_after]
  simp only [List.append_cancel_left_eq, List.cons.injEq, and_true, Command.NewOrderList.injEq,
    bracket_inj]
  set seen := (events ++ [event]).map ScheduleTaskEvent.current_candle with hseen
  have hlength : (events ++ [event]).length = seen.length := (List.length_map _).symm
  rw [hlength]
  rcases Nat.lt_or_ge seen.length 24 with hn | hn
  · have hseen : seen ≠ [] := by simp [seen]
    have hall : seen.rtake 24 = seen := by simp [List.rtake, Nat.sub_eq_zero_of_le hn.le]
    rw [hall]
    have hhighs : seen.map Candle.high_price ≠ [] := by simpa using hseen
    have hlows : seen.map Candle.low_price ≠ [] := by simpa using hseen
    have hhigh := List.max?_eq_some_max hhighs
    have hlow := List.min?_eq_some_min hlows
    refine ⟨_, _, hhigh, hlow, ?_⟩
    obtain ⟨high', low', hhigh', hlow', hvalue⟩ := value_after (by decide : 1 ≤ 24) seen
    rw [max?_held (by simpa using hn) hhigh, Option.some.injEq] at hhigh'
    rw [min?_held (by simpa using hn) hlow, Option.some.injEq] at hlow'
    rw [hvalue, ← hhigh', ← hlow', or_iff_right (not_le.mpr hn), ← range_with_zero]
    constructor
    · intro h
      linarith
    · intro h
      rw [h, mul_comm]
  · obtain ⟨high, low, hhigh, hlow, hvalue⟩ :=
      the_value_is_the_range_of_the_last_candles (by decide) hn
    refine ⟨high, low, hhigh, hlow, ?_⟩
    rw [hvalue]
    exact iff_of_true (by rw [mul_comm]) (Or.inl hn)

/-- The first candle trades at 100 all the time, and the order is at 90 and not at 100. -/
theorem the_first_range_starts_at_zero :
    ((after []).on_event { current_candle := flat_candle 100, open_order_lists := [] }).1 =
        [.NewOrderList (bracket 90)] ∧
      ¬ ∃ high low,
        (([flat_candle 100].rtake 24).map Candle.high_price).max? = some high ∧
        (([flat_candle 100].rtake 24).map Candle.low_price).min? = some low ∧
        ((after []).on_event { current_candle := flat_candle 100, open_order_lists := [] }).1 =
          [.NewOrderList (bracket ((flat_candle 100).open_price - 1 / 10 * (high - low)))] := by
  have hfirst : ((after []).on_event
      { current_candle := flat_candle 100, open_order_lists := [] }).1 =
        [.NewOrderList (bracket 90)] := by decide +kernel
  refine ⟨hfirst, ?_⟩
  rintro ⟨high, low, hhigh, hlow, h⟩
  cases hhigh
  cases hlow
  rw [hfirst] at h
  exact absurd h (by decide +kernel)

end Strategy001

end wedge.strategy2
