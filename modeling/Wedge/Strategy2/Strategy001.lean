-- The first strategy of the new engine (`strategy2/strategy001.h`) and the event
-- that it gets (`strategy2/strategy.h`).
import Wedge.Backtest2.Order
import Wedge.Indicator.Range

namespace wedge.strategy2

open backtest2

/-! ## The event -/

structure Order where
  order_id : ℕ
  order_list_id : Option ℕ
  status : OrderStatus
  deriving DecidableEq, Repr

structure OrderList where
  order_list_id : ℕ
  orders : List Order
  deriving DecidableEq, Repr

/-- The fields of the event that the strategy reads. -/
structure ScheduleTaskEvent where
  current_candle : Candle
  open_order_lists : List OrderList
  deriving DecidableEq, Repr

/-! ## The strategy -/

structure Strategy001 where
  k : ℚ
  range : Range
  deriving DecidableEq, Repr

namespace Strategy001

/-- `from_json` does not read the document. -/
def from_json : Strategy001 := { k := 1 / 10, range := Range.make 24 }

def is_new_order (orders : List Order) : Bool :=
  orders.all fun order => order.status ≠ .kFilled

def cancels (open_order_lists : List OrderList) : List Command :=
  (open_order_lists.filter fun list => is_new_order list.orders).map fun list =>
    .CancelOrderList list.order_list_id

/-- The bracket around the limit price. -/
def bracket (limit_price : ℚ) : NewOrderList :=
  .NewOtocoOrderList
    (.NewLimitOrder .kBuy limit_price 1)
    (.NewStopLossOrder .kSell (limit_price * (1 - 5 / 10000)) 1)
    (.NewLimitOrder .kSell (limit_price * (1 + 5 / 10000)) 1)

/-- The commands that `on_event` gives the broker, in order. It uses no result of them. -/
def on_event (event : ScheduleTaskEvent) (s : Strategy001) : List Command × Strategy001 :=
  let candle := event.current_candle
  let range := s.range.update candle
  let limit_price := candle.open_price - range.value * s.k
  (cancels event.open_order_lists ++ [.NewOrderList (bracket limit_price)],
    { s with range := range })

end Strategy001

end wedge.strategy2
