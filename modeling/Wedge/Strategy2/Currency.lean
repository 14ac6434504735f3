-- The first strategy of the new engine in another currency. Its prices come from the
-- candles alone, so the strategy and the engine together have no unit of price.
import Wedge.Backtest2.Units
import Wedge.Strategy2.Intact

namespace wedge

/-- Another currency, with the sizes as they are. -/
def currency (rate : ℚ) (h : 0 < rate) : Units := { price := rate, size := 1, price_pos := h }

/-! ## The indicator -/

def Range.scaled (u : Units) (r : Range) : Range where
  count_ := r.count_
  high_ := r.high_.map (· * u.price)
  low_ := r.low_.map (· * u.price)

namespace Range

variable (u : Units) (r : Range)

theorem scaled_update (candle : Candle) :
    (r.scaled u).update (candle.scaled u) = (r.update candle).scaled u := by
  simp [update, scaled, Candle.scaled, List.map_set]

/-- A scan compares prices, and it does so alike in all units. -/
theorem scaled_apply (vector : List ℚ) (perd : ℚ → ℚ → Bool)
    (hperd : ∀ a b, perd (a * u.price) (b * u.price) = perd a b) :
    apply (vector.map (· * u.price)) perd = apply vector perd * u.price := by
  have hscan : ∀ (l : List ℚ) (result : ℚ),
      (l.map (· * u.price)).foldl (fun result x => if perd x result then x else result)
          (result * u.price) =
        l.foldl (fun result x => if perd x result then x else result) result * u.price := by
    intro l
    induction l with
    | nil => exact fun _ => rfl
    | cons x l ih =>
      intro result
      rw [List.map_cons, List.foldl_cons, List.foldl_cons, hperd, ← ih]
      split <;> rfl
  cases vector with
  | nil => simp [apply]
  | cons x l => exact hscan l x

theorem scaled_value : (r.scaled u).value = r.value * u.price := by
  have hlt : ∀ a b : ℚ, (a * u.price < b * u.price) = (a < b) := fun a b =>
    propext (mul_lt_mul_iff_left₀ u.price_pos)
  unfold value scaled
  rw [scaled_apply u r.high_ _ (by simp [hlt]), scaled_apply u r.low_ _ (by simp [hlt]), sub_mul]

end Range

namespace strategy2

open backtest2 BacktestEngine Strategy001

/-! ## The strategy and the engine -/

def ScheduleTaskEvent.scaled (u : Units) (event : ScheduleTaskEvent) : ScheduleTaskEvent where
  current_candle := event.current_candle.scaled u
  open_order_lists := event.open_order_lists

def Strategy001.scaled (u : Units) (s : Strategy001) : Strategy001 where
  k := s.k
  range := s.range.scaled u

namespace Trading

def scaled (u : Units) (s : Trading) : Trading where
  engine := s.engine.scaled u
  strategy := s.strategy.scaled u

end Trading

def TradingAction.scaled (u : Units) : TradingAction → TradingAction
  | .candle c => .candle (c.scaled u)
  | .event e => .event (e.scaled u)

section currency

variable {rate : ℚ} (hrate : 0 < rate)

theorem scaled_bracket (limit_price : ℚ) :
    (bracket limit_price).scaled (currency rate hrate) = bracket (limit_price * rate) := by
  simp only [bracket, NewOrderList.scaled, NewOrder.scaled, currency, mul_one, mul_right_comm]

/-- The commands have their prices in the currency. -/
theorem scaled_on_event (event : ScheduleTaskEvent) (s : Strategy001) :
    (s.scaled (currency rate hrate)).on_event (event.scaled (currency rate hrate)) =
      ((s.on_event event).1.map (Command.scaled (currency rate hrate)),
        (s.on_event event).2.scaled (currency rate hrate)) := by
  have hprice : event.current_candle.open_price * rate -
      (s.range.update event.current_candle).value * rate * s.k =
        (event.current_candle.open_price - (s.range.update event.current_candle).value * s.k) *
          rate := by ring
  have hcancels : (cancels event.open_order_lists).map (Command.scaled (currency rate hrate)) =
      cancels event.open_order_lists := by
    simp [cancels, Command.scaled]
  simp only [Strategy001.on_event, Strategy001.scaled, ScheduleTaskEvent.scaled,
    Range.scaled_update, Range.scaled_value, List.map_append, List.map_singleton, hcancels,
    Command.scaled, scaled_bracket, ← hprice]
  rfl

theorem Trading.scaled_on_event (event : ScheduleTaskEvent) (s : Trading) :
    (s.scaled (currency rate hrate)).on_event (event.scaled (currency rate hrate)) =
      (s.on_event event).scaled (currency rate hrate) := by
  have hengine := scaled_foldl (currency rate hrate) s.engine (fun engine c => engine.execute c)
    (fun engine c => engine.execute (c.scaled (currency rate hrate)))
    (fun engine c => scaled_execute _ engine c) (s.strategy.on_event event).1
  simp only [Trading.on_event, Trading.scaled, strategy2.scaled_on_event, List.foldl_map, hengine]

/-- A report names statuses and no prices. -/
theorem scaled_reports {event : ScheduleTaskEvent} {s : BacktestEngine} (h : Reports s event) :
    Reports (s.scaled (currency rate hrate)) (event.scaled (currency rate hrate)) := by
  intro list hlist
  obtain ⟨ids, hids, hreport⟩ := h list hlist
  refine ⟨ids, hids, hreport.trans ?_⟩
  simp only [report, scaled_status?]

theorem Trading.Step.in_currency {s s' : Trading} {a : TradingAction} (h : Step s a s') :
    Step (s.scaled (currency rate hrate)) (a.scaled (currency rate hrate))
      (s'.scaled (currency rate hrate)) := by
  cases h with
  | @candle engine candle fuel hrun =>
    have hscaled := scaled_update_new_orders (currency rate hrate) s.engine fuel candle
    rw [hrun] at hscaled
    exact .candle hscaled
  | @event event hreports =>
    rw [← Trading.scaled_on_event]
    exact .event (scaled_reports hrate hreports)

theorem Trading.scaled_start (base quote : ℚ) :
    (start base quote).scaled (currency rate hrate) = start base (quote * rate) := by
  simp [start, scaled, init, BacktestEngine.scaled, Strategy001.scaled, Strategy001.from_json,
    Range.make, Range.scaled, currency]

end currency

/-- The strategy and its engine have no unit of price: with all candles in another currency they do
the same, order by order, and end with the same base and with the quote in that currency. -/
theorem the_strategy_trades_alike_in_all_currencies (rate : ℚ) (hrate : 0 < rate) (base quote : ℚ)
    (acts : List TradingAction) (s : Trading)
    (h : runs.Run Trading.Step (Trading.start base quote) acts s) :
    ∃ s', runs.Run Trading.Step (Trading.start base (quote * rate))
        (acts.map (TradingAction.scaled (currency rate hrate))) s' ∧
      (∀ id, s'.engine.status? id = s.engine.status? id) ∧
      s'.engine.base_ = s.engine.base_ ∧ s'.engine.quote_ = s.engine.quote_ * rate := by
  have hrun : runs.Run Trading.Step ((Trading.start base quote).scaled (currency rate hrate))
      (acts.map (TradingAction.scaled (currency rate hrate))) (s.scaled (currency rate hrate)) := by
    generalize Trading.start base quote = t at h
    induction h with
    | nil => exact .nil _
    | cons hstep _ ih => exact .cons (hstep.in_currency hrate) ih
  rw [Trading.scaled_start] at hrun
  refine ⟨_, hrun, scaled_status? _ s.engine, mul_one _, ?_⟩
  simp [Trading.scaled, BacktestEngine.scaled, currency]

/-- In the currency with the rate 2, the first bracket is bought too. -/
theorem a_bought_bracket_is_bought_in_all_currencies :
    ∃ (acts : List TradingAction) (s s' : Trading), [0, 1, 2].map s.engine.status? = bought ∧
      runs.Run Trading.Step (Trading.start 0 (1000 * 2)) acts s' ∧
      ∀ id, s'.engine.status? id = s.engine.status? id := by
  have hany : (Trading.event_and_sweep 100 90 (Trading.start 0 1000)).any
      (fun s => [0, 1, 2].map s.engine.status? = bought) = true := by decide +kernel
  obtain ⟨s, hs, hbought⟩ := (Option.any_eq_true _ _).mp hany
  obtain ⟨s', hrun, hstatus, _⟩ := the_strategy_trades_alike_in_all_currencies 2 (by norm_num)
    0 1000 _ s (Trading.run_event_and_sweep hs).forget
  exact ⟨_, s, s', of_decide_eq_true hbought, hrun, hstatus⟩

end strategy2

end wedge
