-- The interfaces between a strategy and its engine (`strategy/broker.h`,
-- `strategy/strategy.h`).
import Wedge.Common
import Wedge.Lib.Programs

namespace wedge

/-- The index of an order. The engines count up from 0. -/
abbrev OrderIndex := ℕ

/-- The four functions of `IBroker` that place an order, with their arguments. -/
inductive OrderCall
  | limit_buy_order (quantity price : ℚ)
  | limit_sell_order (quantity price : ℚ)
  | market_buy_order (quantity : ℚ)
  | market_sell_order (quantity : ℚ)
  deriving DecidableEq, Repr

/-- The functions of `IBroker`. -/
inductive BrokerCall
  | place (order : OrderCall)
  | cancel (index : OrderIndex)
  | account
  deriving DecidableEq, Repr

def BrokerCall.Answer : BrokerCall → Type
  | .place _ => OrderIndex
  | .cancel _ => Unit
  | .account => Account

/-- A program of a strategy: it asks its broker and goes on with the answers. -/
abbrev StrategyProg := programs.Prog BrokerCall BrokerCall.Answer Fault

/-- The entries that the call adds to the map of the engine. -/
def BrokerCall.entries : BrokerCall → ℕ
  | .place _ => 1
  | .cancel _ => 0
  | .account => 0

namespace IBroker

def limit_buy_order (quantity price : ℚ) : StrategyProg OrderIndex :=
  programs.Prog.ask (BrokerCall.place (.limit_buy_order quantity price))

def limit_sell_order (quantity price : ℚ) : StrategyProg OrderIndex :=
  programs.Prog.ask (BrokerCall.place (.limit_sell_order quantity price))

def cancel (index : OrderIndex) : StrategyProg Unit :=
  programs.Prog.ask (BrokerCall.cancel index)

def account : StrategyProg Account := programs.Prog.ask BrokerCall.account

end IBroker

/-- The two callbacks of a strategy with the state `σ`. -/
structure IStrategy (σ : Type) where
  update : Candle → σ → StrategyProg σ
  on_order_filled : OrderIndex → σ → StrategyProg σ

end wedge
