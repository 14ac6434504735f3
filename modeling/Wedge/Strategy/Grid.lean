-- The grid strategy (`strategy/grid_strategy.cc`): its indicator, its two
-- slots for orders, and its callbacks as programs that ask the broker.
import Wedge.Strategy.Broker

namespace wedge

/-! ## The indicator -/

structure RelativeStrengthIndex where
  period_ : ℕ := 20
  sum_loss_ : ℚ := 0
  sum_gain_ : ℚ := 0
  last_price_ : Option ℚ := none
  gains_ : List ℚ := []
  losses_ : List ℚ := []
  deriving DecidableEq, Repr

namespace RelativeStrengthIndex

/-- The new gain and the new loss, with the oldest ones gone when there are more than the
period. -/
def push (gain loss : ℚ) (r : RelativeStrengthIndex) : RelativeStrengthIndex :=
  let r := { r with
    gains_ := r.gains_ ++ [gain]
    losses_ := r.losses_ ++ [loss]
    sum_gain_ := r.sum_gain_ + gain
    sum_loss_ := r.sum_loss_ + loss }
  if r.period_ < r.gains_.length then
    { r with
      sum_gain_ := r.sum_gain_ - r.gains_.headD 0
      sum_loss_ := r.sum_loss_ - r.losses_.headD 0
      gains_ := r.gains_.tail
      losses_ := r.losses_.tail }
  else r

def update (price : ℚ) (r : RelativeStrengthIndex) : RelativeStrengthIndex :=
  match r.last_price_ with
  | none => { r with last_price_ := some price }
  | some last_price =>
    let change := price - last_price
    let r := { r with last_price_ := some price }
    r.push (if 0 < change then change else 0) (if change < 0 then -change else 0)

/-- The value, once there is one. It is not a number (`some none`) when nothing was gained and
nothing was lost. A gain without a loss divides by zero, and the value is then 100. -/
def value (r : RelativeStrengthIndex) : Option (Option ℚ) :=
  if r.period_ ≠ r.gains_.length then none
  else if r.sum_loss_ = 0 then
    if r.sum_gain_ = 0 then some none else some (some 100)
  else
    let rs := r.sum_gain_ / r.sum_loss_
    some (some (100 - 100 / (1 + rs)))

end RelativeStrengthIndex

/-- `<` of a double: nothing is below or above what is not a number. -/
def is_below (bound : ℚ) : Option ℚ → Bool
  | some value => value < bound
  | none => false

/-! ## The strategy -/

structure OrderInfo where
  index : OrderIndex
  price : ℚ
  deriving DecidableEq, Repr

/-- The C++ class does not set `grid_count_`, `order_volume_` and `grid_spacing_` at first. -/
structure GridStrategy where
  order_balance : ℤ := 0
  baseline_price_ : ℚ := 0
  grid_count_ : ℤ
  order_volume_ : ℚ
  grid_spacing_ : ℚ
  buy_order_ : Option OrderInfo := none
  sell_order_ : Option OrderInfo := none
  index_ : RelativeStrengthIndex := {}
  deriving DecidableEq, Repr

/-- The fields of the JSON text that the strategy reads. -/
structure StrategyConfig where
  grid_count : ℤ
  grid_spacing : ℚ
  rsi_price : Option (List ℚ)
  deriving DecidableEq, Repr

namespace GridStrategy

def from_json (json : StrategyConfig) (g : GridStrategy) : GridStrategy :=
  let g := { g with grid_count_ := json.grid_count, grid_spacing_ := json.grid_spacing }
  match json.rsi_price with
  | none => g
  | some prices =>
    { g with index_ := prices.foldl (fun index price => index.update price) g.index_ }

/-- A new strategy with its configuration. `order_volume` is what the memory holds at first. -/
def start (order_volume : ℚ) (json : StrategyConfig) : GridStrategy :=
  from_json json { grid_count_ := 0, order_volume_ := order_volume, grid_spacing_ := 0 }

def place_buy_order (price volume : ℚ) (g : GridStrategy) : StrategyProg GridStrategy :=
  if g.buy_order_.isSome then .fail .assertion
  else do
    let order_id ← IBroker.limit_buy_order volume price
    return { g with buy_order_ := some { index := order_id, price := price } }

def place_sell_order (price volume : ℚ) (g : GridStrategy) : StrategyProg GridStrategy :=
  if g.sell_order_.isSome then .fail .assertion
  else do
    let order_id ← IBroker.limit_sell_order volume price
    return { g with sell_order_ := some { index := order_id, price := price } }

/-- The first half of `cancel_all_orders`. -/
def cancel_buy_order (g : GridStrategy) : StrategyProg GridStrategy :=
  match g.buy_order_ with
  | none => return g
  | some order => do
    IBroker.cancel order.index
    return { g with buy_order_ := none }

/-- The second half of `cancel_all_orders`. -/
def cancel_sell_order (g : GridStrategy) : StrategyProg GridStrategy :=
  match g.sell_order_ with
  | none => return g
  | some order => do
    IBroker.cancel order.index
    return { g with sell_order_ := none }

def cancel_all_orders (g : GridStrategy) : StrategyProg GridStrategy := do
  let g ← g.cancel_buy_order
  g.cancel_sell_order

def place_initial_orders (current_price : ℚ) (g : GridStrategy) : StrategyProg GridStrategy := do
  let account ← IBroker.account
  let balance := account.balance
  let position := account.position
  let total_value := balance + position * current_price
  let target_position := total_value / current_price / 2
  let g := { g with order_volume_ := target_position / g.grid_count_, order_balance := 0 }
  if |target_position - position| * current_price < 7 then
    g.place_buy_order current_price g.order_volume_
  else if target_position < position then
    g.place_sell_order current_price (position - target_position)
  else
    g.place_buy_order current_price (target_position - position)

section to_float

-- The rounding of a double to a float.
variable (to_float : ℚ → ℚ)

def place_order (filled_price : ℚ) (g : GridStrategy) : StrategyProg GridStrategy := do
  let spacing := to_float (g.grid_spacing_ * g.baseline_price_)
  let g ← g.place_sell_order (filled_price + spacing) g.order_volume_
  g.place_buy_order (filled_price - spacing) g.order_volume_

def update (candle : Candle) (g : GridStrategy) : StrategyProg GridStrategy :=
  let g := { g with index_ := g.index_.update candle.close_price }
  match g.index_.value with
  | none => return g
  | some value =>
    if is_below 20 value then g.cancel_all_orders
    else if g.sell_order_.isNone ∧ g.buy_order_.isNone then
      { g with baseline_price_ := candle.close_price }.place_initial_orders candle.close_price
    else
      let price := candle.close_price
      let bound := g.baseline_price_ * g.grid_spacing_ * g.grid_count_
      let lower_bound := g.baseline_price_ - bound
      let upper_bound := g.baseline_price_ + bound
      if price < lower_bound ∨ upper_bound < price then do
        let g ← { g with baseline_price_ := price }.cancel_all_orders
        g.place_initial_orders candle.close_price
      else return g

/-- Takes the order out of its slot, with its price. -/
def take_filled_buy (index : OrderIndex) (g : GridStrategy) : Option ℚ × GridStrategy :=
  match g.buy_order_ with
  | none => (none, g)
  | some order =>
    if order.index = index then
      (some order.price, { g with buy_order_ := none, order_balance := g.order_balance + 1 })
    else (none, g)

def take_filled_sell (index : OrderIndex) (g : GridStrategy) : Option ℚ × GridStrategy :=
  match g.sell_order_ with
  | none => (none, g)
  | some order =>
    if order.index = index then
      (some order.price, { g with sell_order_ := none, order_balance := g.order_balance - 1 })
    else (none, g)

/-- The price starts as not a number, and the last slot that matches gives it. -/
def on_order_filled (index : OrderIndex) (g : GridStrategy) : StrategyProg GridStrategy :=
  let (buy_price, g) := g.take_filled_buy index
  let (sell_price, g) := g.take_filled_sell index
  match sell_price.or buy_price with
  | none => .fail .assertion
  | some filled_price => do
    let g ← g.cancel_all_orders
    g.place_order to_float filled_price

end to_float

end GridStrategy

def grid_strategy (to_float : ℚ → ℚ) : IStrategy GridStrategy where
  update := GridStrategy.update
  on_order_filled := GridStrategy.on_order_filled to_float

end wedge
