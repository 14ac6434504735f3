-- The new backtest engine (`backtest2/backtest_engine.h`, `backtest_engine.cc`):
-- the order book, the ledger, the sweep over the new orders and the commands.
import Wedge.Lib.Runs
import Wedge.Lib.Worklist
import Wedge.Backtest2.Order

namespace wedge.backtest2

/-- The last two fields are not in the C++ class. `heard` holds every event that the engine
heard as the listener of its orders, with the id of the sender. `failed` holds the order of
each assertion that failed: a debug build stops at the first one, and a release build goes
on, as the model does. -/
structure BacktestEngine where
  base_ : ℚ
  quote_ : ℚ
  new_orders_ : List ℕ := []
  order_lists_ : List (List ℕ) := []
  orders_ : List OrderBase := []
  heard : List (ℕ × OrderEvent) := []
  failed : List ℕ := []
  deriving DecidableEq, Repr

namespace BacktestEngine

/-- A new engine. -/
def init (base quote : ℚ) : BacktestEngine := { base_ := base, quote_ := quote }

/-! ## The statuses and the events -/

def is_status (s : BacktestEngine) (order_id : ℕ) (status : OrderStatus) : Bool :=
  match s.orders_[order_id]? with
  | some o => o.is_status status
  | none => false

/-- `OrderBase::status` for a status other than `kFilled`: the write of the field. -/
def write_status (status : OrderStatus) (order_id : ℕ) (s : BacktestEngine) : BacktestEngine :=
  { s with orders_ := s.orders_.modify order_id fun o => { o with status_ := status } }

/-- One turn of the loop of `on_event(const TriggerOrderEvent&)`. -/
def trigger_order (s : BacktestEngine) (order_id : ℕ) : BacktestEngine :=
  let s := if s.is_status order_id .kPendingNew then s
    else { s with failed := s.failed ++ [order_id] }
  let s := s.write_status .kNew order_id
  { s with new_orders_ := s.new_orders_ ++ [order_id] }

def on_fill (event : FillOrderEvent) (s : BacktestEngine) : BacktestEngine :=
  match event.side with
  | .kBuy => { s with
      base_ := s.base_ + event.base * (1 - 1 / 10000)
      quote_ := s.quote_ - event.quote }
  | .kSell => { s with
      base_ := s.base_ - event.base
      quote_ := s.quote_ + event.quote * (1 - 1 / 10000) }

/-- The three `on_event` functions of the engine. -/
def on_event (sender : ℕ) (event : OrderEvent) (s : BacktestEngine) : BacktestEngine :=
  let s := { s with heard := s.heard ++ [(sender, event)] }
  match event with
  | .fill event => s.on_fill event
  | .trigger orders => orders.foldl trigger_order s
  | .cancel orders => orders.foldl (fun s order_id => s.write_status .kCanceled order_id) s

/-- `OrderBase::status(OrderStatus)` of the order. -/
def status (new_status : OrderStatus) (order_id : ℕ) (s : BacktestEngine) : BacktestEngine :=
  let s := s.write_status new_status order_id
  if new_status ≠ .kFilled then s
  else match s.orders_[order_id]? with
    | none => s
    | some o =>
      let s := if o.triggered_ ≠ [] then s.on_event order_id (.trigger o.triggered_) else s
      if o.canceled_ ≠ [] then s.on_event order_id (.cancel o.canceled_) else s

/-! ## The sweep over the new orders -/

/-- The body of the loop of `update_new_orders`. -/
def update_order (candle : Candle) (order_id : ℕ) (s : BacktestEngine) : BacktestEngine :=
  match s.orders_[order_id]? with
  | none => s
  | some o =>
    if o.is_status .kNew then
      (o.update candle).foldl
        (fun s event => (s.on_event order_id (.fill event)).status .kFilled order_id) s
    else s

/-- The `remove_if` and the `erase` after the loop. -/
def remove_stale (s : BacktestEngine) : BacktestEngine :=
  { s with new_orders_ := s.new_orders_.filter fun order_id => s.is_status order_id .kNew }

/-- The iterator is a position, and the fuel bounds the positions that the loop looks at. -/
def update_new_orders (fuel : ℕ) (candle : Candle) (s : BacktestEngine) : Option BacktestEngine :=
  (worklist.walk new_orders_ (update_order candle) fuel 0 s).map remove_stale

/-! ## The orders and the lists -/

def add_base_order (order : OrderBase) (s : BacktestEngine) : ℕ × BacktestEngine :=
  let order_id := s.orders_.length
  let s := if order.is_status .kNew then { s with new_orders_ := s.new_orders_ ++ [order_id] }
    else s
  (order_id, { s with orders_ := s.orders_ ++ [order] })

def add_order_list (list : List ℕ) (s : BacktestEngine) : ℕ × BacktestEngine :=
  (s.order_lists_.length, { s with order_lists_ := s.order_lists_ ++ [list] })

def add_triggered (order_id triggered : ℕ) (s : BacktestEngine) : BacktestEngine :=
  { s with orders_ := s.orders_.modify order_id fun o => o.add_triggered triggered }

def add_canceled (order_id canceled : ℕ) (s : BacktestEngine) : BacktestEngine :=
  { s with orders_ := s.orders_.modify order_id fun o => o.add_canceled canceled }

def add_oco (above below : ℕ) (s : BacktestEngine) : ℕ × BacktestEngine :=
  let s := s.add_canceled above below
  let s := s.add_canceled below above
  s.add_order_list [above, below]

def add_oto (working pending : ℕ) (s : BacktestEngine) : ℕ × BacktestEngine :=
  let s := s.add_triggered working pending
  s.add_order_list [working, pending]

def add_otoco (working pending_above pending_below : ℕ) (s : BacktestEngine) :
    ℕ × BacktestEngine :=
  let s := s.add_triggered working pending_above
  let s := s.add_triggered working pending_below
  let s := s.add_canceled pending_above pending_below
  let s := s.add_canceled pending_below pending_above
  s.add_order_list [working, pending_above, pending_below]

/-! ## The commands -/

/-- The order that `OrderExecutor` makes. -/
def make_order (status : OrderStatus) : NewOrder → OrderBase
  | .NewLimitOrder side price quantity =>
    { cls := .LimitOrder price quantity, side_ := side, status_ := status }
  | .NewMarketOrder side quantity =>
    { cls := .MarketOrder quantity, side_ := side, status_ := status }
  | .NewStopLossOrder side price quantity =>
    { cls := .StopLossOrder price quantity, side_ := side, status_ := status }

def order_executor (status : OrderStatus) (order : NewOrder) (s : BacktestEngine) :
    ℕ × BacktestEngine :=
  s.add_base_order (make_order status order)

def execute_new_order (order : NewOrder) (s : BacktestEngine) : ℕ × BacktestEngine :=
  s.order_executor .kNew order

/-- `OrderListExecutor`. The lower leg of an OCO list starts as `kPendingNew`. -/
def execute_new_order_list (list : NewOrderList) (s : BacktestEngine) : ℕ × BacktestEngine :=
  match list with
  | .NewOtoOrderList working pending =>
    let (working, s) := s.order_executor .kNew working
    let (pending, s) := s.order_executor .kPendingNew pending
    s.add_oto working pending
  | .NewOcoOrderList above below =>
    let (above, s) := s.order_executor .kNew above
    let (below, s) := s.order_executor .kPendingNew below
    s.add_oco above below
  | .NewOtocoOrderList working pending_above pending_below =>
    let (working, s) := s.order_executor .kNew working
    let (pending_above, s) := s.order_executor .kPendingNew pending_above
    let (pending_below, s) := s.order_executor .kPendingNew pending_below
    s.add_otoco working pending_above pending_below

def execute_cancel_order (order_id : ℕ) (s : BacktestEngine) : BacktestEngine :=
  s.status .kCanceled order_id

def execute_cancel_order_list (order_list_id : ℕ) (s : BacktestEngine) : BacktestEngine :=
  (s.order_lists_.getD order_list_id []).foldl
    (fun s order_id => s.status .kCanceled order_id) s

def execute (command : Command) (s : BacktestEngine) : BacktestEngine :=
  match command with
  | .CancelOrder order_id => s.execute_cancel_order order_id
  | .CancelOrderList order_list_id => s.execute_cancel_order_list order_list_id
  | .NewOrder order => (s.execute_new_order order).2
  | .NewOrderList list => (s.execute_new_order_list list).2

/-! ## The runs -/

inductive Action
  | command (command : Command)
  | candle (candle : Candle)
  deriving DecidableEq, Repr

/-- A command names only ids that earlier calls returned. The calls return the ids 0, 1, 2
and so on. -/
def Known (s : BacktestEngine) : Command → Prop
  | .CancelOrder order_id => order_id < s.orders_.length
  | .CancelOrderList order_list_id => order_list_id < s.order_lists_.length
  | .NewOrder _ => True
  | .NewOrderList _ => True

inductive Step : BacktestEngine → Action → BacktestEngine → Prop
  | command {s : BacktestEngine} {c : Command} : s.Known c → Step s (.command c) (s.execute c)
  | candle {s s' : BacktestEngine} {candle : Candle} {fuel : ℕ} :
      s.update_new_orders fuel candle = some s' → Step s (.candle candle) s'

/-- A run of commands and candles. -/
abbrev Run := runs.Run Step

end BacktestEngine

end wedge.backtest2
