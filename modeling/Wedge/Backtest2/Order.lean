-- The orders of the new backtest engine (`backtest2/order.h`, `order.cc`) and
-- the commands of its broker (`strategy2/broker.h`).
import Wedge.Common

namespace wedge.backtest2

/-! ## The commands of the broker -/

inductive NewOrder
  | NewLimitOrder (side : OrderSide) (price quantity : ℚ)
  | NewMarketOrder (side : OrderSide) (quantity : ℚ)
  | NewStopLossOrder (side : OrderSide) (price quantity : ℚ)
  deriving DecidableEq, Repr

inductive NewOrderList
  | NewOtoOrderList (working pending : NewOrder)
  | NewOcoOrderList (above below : NewOrder)
  | NewOtocoOrderList (working pending_above pending_below : NewOrder)
  deriving DecidableEq, Repr

inductive Command
  | CancelOrder (order_id : ℕ)
  | CancelOrderList (order_list_id : ℕ)
  | NewOrder (order : NewOrder)
  | NewOrderList (list : NewOrderList)
  deriving DecidableEq, Repr

/-! ## The events that an order sends to its listener -/

structure FillOrderEvent where
  side : OrderSide
  base : ℚ
  quote : ℚ
  deriving DecidableEq, Repr

inductive OrderEvent
  | fill (event : FillOrderEvent)
  | trigger (orders : List ℕ)
  | cancel (orders : List ℕ)
  deriving DecidableEq, Repr

/-! ## The orders -/

/-- The class of an order, with the fields that the class adds to `OrderBase`. -/
inductive OrderClass
  | LimitOrder (price_ quantity_ : ℚ)
  | MarketOrder (quantity_ : ℚ)
  | StopLossOrder (price_ quantity_ : ℚ)
  deriving DecidableEq, Repr

structure OrderBase where
  cls : OrderClass
  side_ : OrderSide
  status_ : OrderStatus
  triggered_ : List ℕ := []
  canceled_ : List ℕ := []
  deriving DecidableEq, Repr

namespace OrderBase

def is_status (o : OrderBase) (status : OrderStatus) : Bool := status = o.status_

def add_triggered (o : OrderBase) (order_id : ℕ) : OrderBase :=
  { o with triggered_ := o.triggered_ ++ [order_id] }

def add_canceled (o : OrderBase) (order_id : ℕ) : OrderBase :=
  { o with canceled_ := o.canceled_ ++ [order_id] }

/-- The fill events of `LimitOrder::update`, in the order of its two tests. The side of
an order never changes, so the second test does not depend on the effects of the first. -/
def limit_update (side_ : OrderSide) (price_ quantity_ : ℚ) (candle : Candle) :
    List FillOrderEvent :=
  (if side_ = .kBuy ∧ candle.low_price ≤ price_ then
    [{ side := .kBuy, base := quantity_, quote := quantity_ * price_ }] else []) ++
  (if side_ = .kSell ∧ price_ ≤ candle.high_price then
    [{ side := .kSell, base := quantity_, quote := quantity_ * price_ }] else [])

def market_update (side_ : OrderSide) (quantity_ : ℚ) (candle : Candle) : List FillOrderEvent :=
  [{ side := side_, base := quantity_, quote := quantity_ * candle.close_price }]

def stop_loss_update (side_ : OrderSide) (price_ quantity_ : ℚ) (candle : Candle) :
    List FillOrderEvent :=
  (if side_ = .kSell ∧ candle.low_price ≤ price_ then
    [{ side := .kSell, base := quantity_, quote := quantity_ * price_ }] else []) ++
  (if side_ = .kBuy ∧ price_ ≤ candle.high_price then
    [{ side := .kBuy, base := quantity_, quote := quantity_ * price_ }] else [])

/-- The fill events that `update` sends, one for each time that it ends in
`status(kFilled)`. -/
def update (o : OrderBase) (candle : Candle) : List FillOrderEvent :=
  match o.cls with
  | .LimitOrder price_ quantity_ => limit_update o.side_ price_ quantity_ candle
  | .MarketOrder quantity_ => market_update o.side_ quantity_ candle
  | .StopLossOrder price_ quantity_ => stop_loss_update o.side_ price_ quantity_ candle

/-! ## One update, in closed form -/

def quantity (o : OrderBase) : ℚ :=
  match o.cls with
  | .LimitOrder _ quantity_ => quantity_
  | .MarketOrder quantity_ => quantity_
  | .StopLossOrder _ quantity_ => quantity_

/-- The price of a fill on the candle. -/
def fill_price (o : OrderBase) (candle : Candle) : ℚ :=
  match o.cls with
  | .LimitOrder price_ _ => price_
  | .MarketOrder _ => candle.close_price
  | .StopLossOrder price_ _ => price_

/-- The fill condition of the order on the candle. -/
def meets (o : OrderBase) (candle : Candle) : Bool :=
  match o.cls, o.side_ with
  | .LimitOrder price_ _, .kBuy => candle.low_price ≤ price_
  | .LimitOrder price_ _, .kSell => price_ ≤ candle.high_price
  | .MarketOrder _, _ => true
  | .StopLossOrder price_ _, .kSell => candle.low_price ≤ price_
  | .StopLossOrder price_ _, .kBuy => price_ ≤ candle.high_price

def fill_event (o : OrderBase) (candle : Candle) : FillOrderEvent :=
  { side := o.side_, base := o.quantity, quote := o.quantity * o.fill_price candle }

/-- An order sends one fill event when the candle meets its condition, and else none. -/
theorem update_eq (o : OrderBase) (candle : Candle) :
    o.update candle = if o.meets candle then [o.fill_event candle] else [] := by
  obtain ⟨cls, side, status, triggered, canceled⟩ := o
  rcases cls with ⟨p, q⟩ | q | ⟨p, q⟩ <;> cases side <;>
    simp [update, limit_update, market_update, stop_loss_update, meets, fill_event, quantity,
      fill_price]

end OrderBase

end wedge.backtest2
