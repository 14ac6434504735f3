-- The prices of the simulated trades: what a sweep fills, and the price that
-- each fill event implies.
import Wedge.Backtest2.Ledger

namespace wedge

/-- The prices of a candle lie between its low and its high price. -/
structure Candle.Ordered (candle : Candle) : Prop where
  low_open : candle.low_price ≤ candle.open_price
  open_high : candle.open_price ≤ candle.high_price
  low_close : candle.low_price ≤ candle.close_price
  close_high : candle.close_price ≤ candle.high_price

/-- The price lies in the range of the candle. -/
def Candle.Traded (candle : Candle) (price : ℚ) : Prop :=
  candle.low_price ≤ price ∧ price ≤ candle.high_price

end wedge

namespace wedge.backtest2

/-! ## The price of a fill -/

/-- The price that a fill event implies. -/
def FillOrderEvent.price (event : FillOrderEvent) : ℚ := event.quote / event.base

namespace OrderBase

/-- The limit or the stop price. A market order has none. -/
def own_price (o : OrderBase) : Option ℚ :=
  match o.cls with
  | .LimitOrder price_ _ => some price_
  | .MarketOrder _ => none
  | .StopLossOrder price_ _ => some price_

/-- A limit buy and a stop-loss sell wait for a low price, a limit sell and a stop-loss buy for
a high price. -/
def waits_for_low (o : OrderBase) : Bool :=
  match o.cls, o.side_ with
  | .LimitOrder _ _, .kBuy => true
  | .StopLossOrder _ _, .kSell => true
  | _, _ => false

theorem fill_event_price (o : OrderBase) (candle : Candle) (h : o.quantity ≠ 0) :
    (o.fill_event candle).price = o.own_price.getD candle.close_price := by
  unfold FillOrderEvent.price fill_event
  rw [mul_div_cancel_left₀ _ h]
  unfold fill_price own_price
  cases o.cls <;> rfl

/-- The test of an order with an own price looks at one end of the candle only. -/
theorem meets_own_price {o : OrderBase} {candle : Candle} {price : ℚ}
    (h : o.own_price = some price) :
    o.meets candle = true ↔
      if o.waits_for_low then candle.low_price ≤ price else price ≤ candle.high_price := by
  obtain ⟨cls, side, status, triggered, canceled⟩ := o
  rcases cls with ⟨p, q⟩ | q | ⟨p, q⟩ <;> cases side <;>
    simp_all [own_price, meets, waits_for_low]

end OrderBase

/-! ## The fills of a sweep -/

namespace BacktestEngine

/-- The fills behind the first `n` are fills of orders whose conditions the candle met. -/
def FilledOn (candle : Candle) (n : ℕ) (s : BacktestEngine) : Prop :=
  ∀ f ∈ s.fills.drop n, ∃ o, s.orders_[f.1]? = some o ∧ o.meets candle = true ∧
    f.2 = o.fill_event candle

theorem filledOn_update_order {candle : Candle} {n : ℕ} {s : BacktestEngine} (hw : Wired s)
    (id : ℕ) (hn : n ≤ s.fills.length) (h : FilledOn candle n s) :
    FilledOn candle n (s.update_order candle id) := by
  intro f hf
  have hold : ∃ o, s.orders_[f.1]? = some o ∧ o.meets candle = true ∧
      f.2 = o.fill_event candle := by
    rcases update_order_cases hw candle id with ⟨o, ho, _, hm, he⟩ | ⟨_, he⟩
    · rw [he, filled_fills, List.drop_append_of_le_length hn] at hf
      rcases List.mem_append.mp hf with hf | hf
      · exact h f hf
      · rw [List.mem_singleton.mp hf]
        rw [meets, ho] at hm
        exact ⟨o, ho, hm, rfl⟩
    · rw [he] at hf
      exact h f hf
  obtain ⟨o, ho, hm, he⟩ := hold
  obtain ⟨st, hst⟩ := (grows_update_order hw candle id).order f.1 o ho
  exact ⟨_, hst, hm, he⟩

/-- Every new fill of a sweep is the fill of an order whose condition the candle meets. -/
theorem sweep_fills {candle : Candle} {fuel : ℕ} {s s' : BacktestEngine} (h : Sound s)
    (hrun : s.update_new_orders fuel candle = some s') :
    s.fills <+: s'.fills ∧ FilledOn candle s.fills.length s' := by
  obtain ⟨t, rfl, _, ht⟩ := sweep_keeps
    (p := fun t => s.fills <+: t.fills ∧ FilledOn candle s.fills.length t)
    (by
      rintro t id ht _ ⟨h1, h2⟩
      have hg := grows_update_order ht.wired candle id
      exact ⟨h1.trans hg.fills, filledOn_update_order ht.wired id h1.length_le h2⟩)
    h ⟨List.prefix_rfl, by simp [FilledOn]⟩ hrun
  exact ht

/-! ## The law of the prices -/

/-- The price of a fill. A market order trades at the close price, inside the candle. Every
other order trades at its own price, and the candle reached that price on the side that the
order waited for: the own price can be beyond the other end. -/
structure Priced (candle : Candle) (o : OrderBase) (event : FillOrderEvent) : Prop where
  at_close : o.own_price = none → event.price = candle.close_price ∧ candle.Traded event.price
  at_own : ∀ price, o.own_price = some price → event.price = price
  reached_low : ∀ price, o.own_price = some price → o.waits_for_low = true →
    candle.low_price ≤ event.price
  reached_high : ∀ price, o.own_price = some price → o.waits_for_low = false →
    event.price ≤ candle.high_price

theorem priced_fill {candle : Candle} {o : OrderBase} (hc : candle.Ordered)
    (hm : o.meets candle = true) (hq : o.quantity ≠ 0) :
    Priced candle o (o.fill_event candle) := by
  have hprice := o.fill_event_price candle hq
  have hown : ∀ price, o.own_price = some price → (o.fill_event candle).price = price := by
    intro price h
    rw [hprice, h, Option.getD_some]
  refine ⟨fun h => ?_, hown, fun price h hlow => ?_, fun price h hhigh => ?_⟩
  · rw [hprice, h, Option.getD_none]
    exact ⟨rfl, hc.low_close, hc.close_high⟩
  · have h1 := (OrderBase.meets_own_price h).mp hm
    rw [hown price h]
    rwa [if_pos hlow] at h1
  · have h1 := (OrderBase.meets_own_price h).mp hm
    rw [hown price h]
    rwa [hhigh, if_neg Bool.false_ne_true] at h1

/-- Every fill of a sweep, of an order of any kind that is not empty, trades at the close price
of the candle or at the own price of the order. -/
theorem fills_trade_at_the_close_or_at_their_own_price (base quote : ℚ) (acts : List Action)
    (s s' : BacktestEngine) (candle : Candle) (fuel : ℕ) (hc : candle.Ordered)
    (h : Run (init base quote) acts s) (hrun : s.update_new_orders fuel candle = some s') :
    ∃ fills, s'.fills = s.fills ++ fills ∧ ∀ f ∈ fills, ∃ o, s'.orders_[f.1]? = some o ∧
      (o.quantity ≠ 0 → Priced candle o f.2) := by
  obtain ⟨⟨fills, hf⟩, hall⟩ := sweep_fills (sound_of_run h) hrun
  refine ⟨fills, hf.symm, fun f hmem => ?_⟩
  have hdrop : f ∈ s'.fills.drop s.fills.length := by
    rw [← hf, List.drop_left]
    exact hmem
  obtain ⟨o, ho, hm, he⟩ := hall f hdrop
  refine ⟨o, ho, fun hq => ?_⟩
  rw [he]
  exact priced_fill hc hm hq

/-- A limit buy at 100 and a market sell that meet a candle from 90 to 95. -/
def gap_run : List Action :=
  [.command (.NewOrder (.NewLimitOrder .kBuy 100 2)),
    .command (.NewOrder (.NewMarketOrder .kSell 1))]

/-- A candle that opens under the limit price. -/
def gap_candle : Candle :=
  { flat_candle 92 with open_price := 91, low_price := 90, high_price := 95 }

theorem a_gap_trades_at_the_close_or_at_the_limit :
    ∃ s s', Run (init 10 1000) gap_run s ∧ s.update_new_orders 9 gap_candle = some s' ∧
      s'.fired = [0, 1] ∧ ∃ fills, s'.fills = s.fills ++ fills ∧ ∀ f ∈ fills,
        ∃ o, s'.orders_[f.1]? = some o ∧ (o.quantity ≠ 0 → Priced gap_candle o f.2) := by
  obtain ⟨s, hs, s', hs', hf⟩ : ∃ s, replay (fun _ _ => True) 9 gap_run (init 10 1000) = some s ∧
      ∃ s', s.update_new_orders 9 gap_candle = some s' ∧ s'.fired = [0, 1] :=
    ⟨_, rfl, _, rfl, by decide +kernel⟩
  have h := (run_of_replay _ hs).forget
  have hc : gap_candle.Ordered := by constructor <;> norm_num [gap_candle, flat_candle]
  exact ⟨s, s', h, hs', hf,
    fills_trade_at_the_close_or_at_their_own_price 10 1000 gap_run s s' gap_candle 9 hc h hs'⟩

/-- The limit buy trades at 100, and the candle never did. -/
theorem a_limit_buy_trades_above_the_candle :
    ∃ s s' event, Run (init 10 1000) gap_run s ∧ gap_candle.Ordered ∧
      s.update_new_orders 9 gap_candle = some s' ∧ s'.fills.head? = some (0, event) ∧
      event.base = 2 ∧ event.price = 100 ∧ ¬ gap_candle.Traded event.price := by
  obtain ⟨s, hs, s', hs', hf⟩ : ∃ s, replay (fun _ _ => True) 9 gap_run (init 10 1000) = some s ∧
      ∃ s', s.update_new_orders 9 gap_candle = some s' ∧
        s'.fills.head? = some (0, { side := .kBuy, base := 2, quote := 200 }) :=
    ⟨_, rfl, _, rfl, by decide +kernel⟩
  refine ⟨s, s', _, (run_of_replay _ hs).forget, ?_, hs', hf, rfl, ?_, ?_⟩
  · constructor <;> norm_num [gap_candle, flat_candle]
  · norm_num [FillOrderEvent.price]
  · norm_num [FillOrderEvent.price, Candle.Traded, gap_candle, flat_candle]

end BacktestEngine

end wedge.backtest2
