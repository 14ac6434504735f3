-- The old backtest engine (`backtest/backtest_context.cc`, `backtest_broker.cc`,
-- `backtest/order/*.cc`): a sorted map of open orders, an account, and one
-- traversal of the map for each candle, with the strategy called in between.
import Wedge.Lib.Containers
import Wedge.Lib.Runs
import Wedge.Strategy.Broker

namespace wedge

open programs containers

/-- The class of an order in `orders_` is the call that placed it. -/
structure BacktestContext where
  account_ : Account
  commission_ : ℚ := 0
  orders_ : Map OrderIndex OrderCall := ∅
  last_order_index_ : OrderIndex := 0
  deriving DecidableEq, Repr

namespace BacktestContext

def add_order (order : OrderCall) (c : BacktestContext) : OrderIndex × BacktestContext :=
  let index := c.last_order_index_
  (index, { c with
    last_order_index_ := index + 1
    orders_ := sorted.emplace index order c.orders_ })

def cancel (index : OrderIndex) (c : BacktestContext) : BacktestContext :=
  { c with orders_ := c.orders_.erase index }

def execute_buy_order (quantity price : ℚ) (c : BacktestContext) : Bool × BacktestContext :=
  let total_cost := quantity * price
  if c.account_.balance < total_cost then (false, c)
  else
    let account := c.account_.update_balance (-total_cost)
    (true, { c with account_ := account.update_position (quantity * (1 - c.commission_)) })

def execute_sell_order (quantity price : ℚ) (c : BacktestContext) : Bool × BacktestContext :=
  if c.account_.position < quantity then (false, c)
  else
    let total_income := quantity * price
    let account := c.account_.update_balance (total_income * (1 - c.commission_))
    (true, { c with account_ := account.update_position (-quantity) })

end BacktestContext

/-- `update` of the four order classes. -/
def OrderCall.update (context : BacktestContext) (candle : Candle) :
    OrderCall → Bool × BacktestContext
  | .limit_buy_order quantity price =>
    if price < candle.low_price then (false, context)
    else context.execute_buy_order quantity price
  | .limit_sell_order quantity price =>
    if candle.high_price < price then (false, context)
    else context.execute_sell_order quantity price
  | .market_buy_order quantity => context.execute_buy_order quantity candle.close_price
  | .market_sell_order quantity => context.execute_sell_order quantity candle.close_price

def BacktestBroker : Handler BrokerCall BrokerCall.Answer Fault BacktestContext
  | .place order, c => (.ok (c.add_order order).1, (c.add_order order).2)
  | .cancel index, c => (.ok (), c.cancel index)
  | .account, c => (.ok c.account_, c)

/-! ## The runs -/

/-- Where `BacktestContext::run` stands: before it asks for a candle, in the traversal, before
and after `on_order_filled`, and before `update`. -/
inductive BacktestPc
  | next
  | visit (iterator : Option OrderIndex) (last_index : OrderIndex) (candle : Candle)
  | filled (order_index last_index : OrderIndex) (candle : Candle)
  | reported (order_index last_index : OrderIndex) (candle : Candle)
  | swept (candle : Candle)
  | crashed (fault : Fault)
  deriving DecidableEq, Repr

/-- `fills` counts the orders that the last candle has filled so far. -/
structure BacktestRun (σ : Type) where
  pc : BacktestPc := .next
  data_loader : List Candle
  context : BacktestContext
  strategy : σ
  fills : ℕ := 0

namespace BacktestRun

variable {σ : Type}

/-- Runs a callback of the strategy. -/
def callback (p : StrategyProg σ) (pc : BacktestPc) (r : BacktestRun σ) : BacktestRun σ :=
  match run BacktestBroker p r.context with
  | (.ok strategy, context) => { r with pc := pc, context := context, strategy := strategy }
  | (.error fault, context) => { r with pc := .crashed fault, context := context }

theorem callback_ok {prog : StrategyProg σ} {pc : BacktestPc} {r : BacktestRun σ} {strategy : σ}
    {context : BacktestContext}
    (h : run BacktestBroker prog r.context = (.ok strategy, context)) :
    r.callback prog pc = { r with pc := pc, context := context, strategy := strategy } := by
  unfold callback
  rw [h]

theorem callback_error {prog : StrategyProg σ} {pc : BacktestPc} {r : BacktestRun σ}
    {fault : Fault} {context : BacktestContext}
    (h : run BacktestBroker prog r.context = (.error fault, context)) :
    r.callback prog pc = { r with pc := .crashed fault, context := context } := by
  unfold callback
  rw [h]

/-- One step. There is none after the last candle and after a crash. -/
def step (S : IStrategy σ) (r : BacktestRun σ) : Option (BacktestRun σ) :=
  match r.pc with
  | .next =>
    match r.data_loader with
    | [] => none
    | candle :: rest => some { r with
        pc := .visit (r.context.orders_.first) r.context.last_order_index_ candle
        data_loader := rest
        fills := 0 }
  | .visit none _ candle => some { r with pc := .swept candle }
  | .visit (some index) last_index candle =>
    if index < last_index then
      match r.context.orders_.find index with
      | none => some { r with pc := .crashed .undefined }
      | some order =>
        match order.update r.context candle with
        | (false, context) => some { r with
            pc := .visit (r.context.orders_.next index) last_index candle
            context := context }
        | (true, context) => some { r with
            pc := .filled index last_index candle
            context := context
            fills := r.fills + 1 }
    else some { r with pc := .swept candle }
  | .filled index last_index candle =>
    some (r.callback (S.on_order_filled index r.strategy) (.reported index last_index candle))
  | .reported index last_index candle =>
    if index ∈ r.context.orders_.keys then some { r with
      pc := .visit (r.context.orders_.next index) last_index candle
      context := r.context.cancel index }
    else some { r with pc := .crashed .undefined }
  | .swept candle => some (r.callback (S.update candle r.strategy) .next)
  | .crashed _ => none

/-- A new engine with its strategy. -/
def start (account : Account) (commission : ℚ) (candles : List Candle) (strategy : σ) :
    BacktestRun σ where
  data_loader := candles
  context := { account_ := account, commission_ := commission }
  strategy := strategy

def Step (S : IStrategy σ) (r : BacktestRun σ) (_ : Unit) (r' : BacktestRun σ) : Prop :=
  r.step S = some r'

end BacktestRun

end wedge
