-- The first order of the grid strategy and the money for it. A trade to the target
-- position is always within the account. An order below the exchange's minimum is
-- replaced by one grid volume, and that one is not.
import Wedge.Backtest.Effects
import Wedge.Strategy.Grid

namespace wedge

open programs

/-- The limit order of a side. -/
def limit_order (side : OrderSide) (quantity price : ℚ) : OrderCall :=
  match side with
  | .kBuy => .limit_buy_order quantity price
  | .kSell => .limit_sell_order quantity price

namespace BacktestContext

/-- `execute_buy_order` or `execute_sell_order`. -/
def execute_order (side : OrderSide) (quantity price : ℚ) (c : BacktestContext) :
    Bool × BacktestContext :=
  match side with
  | .kBuy => c.execute_buy_order quantity price
  | .kSell => c.execute_sell_order quantity price

theorem execute_order_accepts (side : OrderSide) (quantity price : ℚ) (c : BacktestContext) :
    (c.execute_order side quantity price).1 = true ↔ c.Funds side quantity price := by
  cases side with
  | kBuy =>
    rw [execute_order, execute_buy_order_eq]
    split_ifs with h <;> simp [h]
  | kSell =>
    rw [execute_order, execute_sell_order_eq]
    split_ifs with h <;> simp [h]

end BacktestContext

namespace GridStrategy

/-- The position of an account with half of its value in it. -/
def target_position (account : Account) (price : ℚ) : ℚ :=
  (account.balance + account.position * price) / price / 2

/-- The side and the quantity of the order that `place_initial_orders` places. -/
def initial_trade (account : Account) (grid_count : ℤ) (price : ℚ) : OrderSide × ℚ :=
  let target_position := target_position account price
  if |target_position - account.position| * price < 7 then (.kBuy, target_position / grid_count)
  else if target_position < account.position then (.kSell, account.position - target_position)
  else (.kBuy, target_position - account.position)

theorem trace_place_buy {g : GridStrategy} (hbuy : g.buy_order_ = none) (volume price : ℚ)
    (c : BacktestContext) :
    trace BacktestBroker (g.place_buy_order price volume) c =
      [⟨.place (limit_order .kBuy volume price), c.last_order_index_⟩] := by
  rw [place_buy_order, if_neg (by simp [hbuy])]
  rfl

theorem trace_place_sell {g : GridStrategy} (hsell : g.sell_order_ = none) (volume price : ℚ)
    (c : BacktestContext) :
    trace BacktestBroker (g.place_sell_order price volume) c =
      [⟨.place (limit_order .kSell volume price), c.last_order_index_⟩] := by
  rw [place_sell_order, if_neg (by simp [hsell])]
  rfl

/-- With its slots free the strategy looks at its account and places one order, at the price that
it got. -/
theorem trace_initial {g : GridStrategy} (hbuy : g.buy_order_ = none)
    (hsell : g.sell_order_ = none) (price : ℚ) (c : BacktestContext) {side : OrderSide}
    {quantity : ℚ} (htrade : initial_trade c.account_ g.grid_count_ price = (side, quantity)) :
    trace BacktestBroker (g.place_initial_orders price) c =
      [⟨.account, c.account_⟩,
        ⟨.place (limit_order side quantity price), c.last_order_index_⟩] := by
  unfold initial_trade target_position at htrade
  unfold place_initial_orders
  refine (trace_call_ok (s := c) (t := c) (a := c.account_) rfl _).trans (congrArg _ ?_)
  dsimp only [Prog.bind] at htrade ⊢
  split_ifs at htrade ⊢
  · cases htrade
    apply trace_place_buy
    exact hbuy
  · cases htrade
    apply trace_place_sell
    exact hsell
  · cases htrade
    apply trace_place_buy
    exact hbuy

section funds

variable {account : Account} {grid_count : ℤ} {price : ℚ}

/-- The value of the trade to the target position is half of the difference between the balance
and the position. -/
theorem trade_value (hprice : 0 < price) :
    (target_position account price - account.position) * price =
      (account.balance - account.position * price) / 2 := by
  unfold target_position
  field_simp
  ring

theorem volume_value (hprice : 0 < price) :
    target_position account price / grid_count * price =
      (account.balance + account.position * price) / 2 / grid_count := by
  unfold target_position
  field_simp

theorem target_position_nonneg (hbalance : 0 ≤ account.balance) (hposition : 0 ≤ account.position)
    (hprice : 0 < price) : 0 ≤ target_position account price := by
  unfold target_position
  positivity

/-- The trade is below the minimum. -/
theorem small_iff (hprice : 0 < price) :
    |target_position account price - account.position| * price < 7 ↔
      |account.balance - account.position * price| < 14 := by
  have habs : |target_position account price - account.position| * price =
      |account.balance - account.position * price| / 2 := by
    rw [← abs_of_pos hprice, ← abs_mul, abs_of_pos hprice, trade_value hprice, abs_div, abs_two]
  rw [habs]
  constructor
  · intro h
    linarith
  · intro h
    linarith

/-- One grid volume is within the balance. -/
theorem volume_le_iff (hcount : 1 ≤ grid_count) (hprice : 0 < price) :
    target_position account price / grid_count * price ≤ account.balance ↔
      account.balance + account.position * price ≤ 2 * grid_count * account.balance := by
  have hpos : (0 : ℚ) < grid_count := by exact_mod_cast hcount
  rw [volume_value hprice, div_le_iff₀ hpos]
  constructor
  · intro h
    linarith
  · intro h
    linarith

/-- The trade of `place_initial_orders` is within the account, except for a grid volume that
the balance does not cover. -/
theorem initial_trade_funds (hbalance : 0 ≤ account.balance) (hposition : 0 ≤ account.position)
    (hprice : 0 < price) (hcount : 1 ≤ grid_count) {c : BacktestContext}
    (hc : c.account_ = account) :
    c.Funds (initial_trade account grid_count price).1 (initial_trade account grid_count price).2
        price ↔
      14 ≤ |account.balance - account.position * price| ∨
        account.balance + account.position * price ≤ 2 * grid_count * account.balance := by
  have htarget := target_position_nonneg hbalance hposition hprice
  have htrade : (target_position account price - account.position) * price =
      (account.balance - account.position * price) / 2 := trade_value hprice
  have hvalue : 0 ≤ account.position * price := by positivity
  unfold initial_trade
  dsimp only
  split_ifs with hsmall hsell
  · rw [small_iff hprice] at hsmall
    rw [or_iff_right (not_le.mpr hsmall), ← volume_le_iff hcount hprice, ← hc]
    exact Iff.rfl
  · rw [small_iff hprice, not_lt] at hsmall
    refine iff_of_true ?_ (Or.inl hsmall)
    simp only [BacktestContext.Funds, hc]
    linarith
  · rw [small_iff hprice, not_lt] at hsmall
    refine iff_of_true ?_ (Or.inl hsmall)
    simp only [BacktestContext.Funds, hc]
    linarith

end funds

end GridStrategy

/-- With its slots free the strategy places one initial order. Its account can execute it if and
only if the trade to the target position is worth 7 or more, or the balance covers the value of
one grid volume. -/
theorem the_initial_order_is_affordable_iff {g : GridStrategy} {c : BacktestContext} {price : ℚ}
    (hbuy : g.buy_order_ = none) (hsell : g.sell_order_ = none)
    (hbalance : 0 ≤ c.account_.balance) (hposition : 0 ≤ c.account_.position)
    (hprice : 0 < price) (hcount : 1 ≤ g.grid_count_) :
    ∃ side quantity, trace BacktestBroker (g.place_initial_orders price) c =
        [⟨.account, c.account_⟩,
          ⟨.place (limit_order side quantity price), c.last_order_index_⟩] ∧
      ((c.execute_order side quantity price).1 = true ↔
        14 ≤ |c.account_.balance - c.account_.position * price| ∨
          c.account_.balance + c.account_.position * price ≤
            2 * g.grid_count_ * c.account_.balance) := by
  refine ⟨_, _, GridStrategy.trace_initial hbuy hsell price c rfl, ?_⟩
  rw [BacktestContext.execute_order_accepts]
  exact GridStrategy.initial_trade_funds hbalance hposition hprice hcount rfl

/-- A strategy with five levels before its first order. -/
def five_levels_ahead : GridStrategy :=
  { grid_count_ := 5, order_volume_ := 0, grid_spacing_ := 1 / 100 }

theorem a_rich_account_affords_it :
    ∃ side quantity, trace BacktestBroker (five_levels_ahead.place_initial_orders 10)
        { account_ := { balance := 100, position := 1 } } =
        [⟨.account, { balance := 100, position := 1 }⟩,
          ⟨.place (limit_order side quantity 10), (0 : OrderIndex)⟩] ∧
      ((BacktestContext.execute_order side quantity 10
          { account_ := { balance := 100, position := 1 } }).1 = true ↔
        14 ≤ |(100 : ℚ) - 1 * 10| ∨ (100 : ℚ) + 1 * 10 ≤ 2 * (5 : ℤ) * 100) :=
  the_initial_order_is_affordable_iff (g := five_levels_ahead)
    (c := { account_ := { balance := 100, position := 1 } }) rfl rfl (by norm_num) (by norm_num)
    (by norm_num) (by decide)

/-- The account holds one coin at 10 and no money. The strategy wants to buy a tenth of a coin
and cannot pay for it. -/
theorem no_money_for_the_first_order :
    trace BacktestBroker (five_levels_ahead.place_initial_orders 10)
        { account_ := { balance := 0, position := 1 } } =
        [⟨.account, { balance := 0, position := 1 }⟩,
          ⟨.place (.limit_buy_order (1 / 10) 10), (0 : OrderIndex)⟩] ∧
      (BacktestContext.execute_buy_order (1 / 10) 10
        { account_ := { balance := 0, position := 1 } }).1 = false := by
  have htrade : GridStrategy.initial_trade { balance := 0, position := 1 } 5 10 =
      (.kBuy, 1 / 10) := by decide +kernel
  exact ⟨GridStrategy.trace_initial (g := five_levels_ahead) rfl rfl 10
    { account_ := { balance := 0, position := 1 } } htrade, by decide +kernel⟩

end wedge
