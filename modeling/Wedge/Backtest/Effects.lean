-- What a look at an order of the old engine does, in closed form: the candle meets
-- the order or not, the account can pay for it or not, and else nothing changes.
import Wedge.Backtest.Context

namespace wedge

open containers

namespace OrderCall

def side : OrderCall → OrderSide
  | .limit_buy_order _ _ => .kBuy
  | .limit_sell_order _ _ => .kSell
  | .market_buy_order _ => .kBuy
  | .market_sell_order _ => .kSell

def quantity : OrderCall → ℚ
  | .limit_buy_order quantity _ => quantity
  | .limit_sell_order quantity _ => quantity
  | .market_buy_order quantity => quantity
  | .market_sell_order quantity => quantity

/-- The price of an execution on the candle. -/
def fill_price (candle : Candle) : OrderCall → ℚ
  | .limit_buy_order _ price => price
  | .limit_sell_order _ price => price
  | .market_buy_order _ => candle.close_price
  | .market_sell_order _ => candle.close_price

/-- The candle reaches the price of the order. -/
def meets (candle : Candle) : OrderCall → Bool
  | .limit_buy_order _ price => candle.low_price ≤ price
  | .limit_sell_order _ price => price ≤ candle.high_price
  | .market_buy_order _ => true
  | .market_sell_order _ => true

end OrderCall

namespace BacktestContext

/-- The account can pay for the trade. -/
def Funds (side : OrderSide) (quantity price : ℚ) (c : BacktestContext) : Prop :=
  match side with
  | .kBuy => quantity * price ≤ c.account_.balance
  | .kSell => quantity ≤ c.account_.position

instance (side : OrderSide) (quantity price : ℚ) (c : BacktestContext) :
    Decidable (c.Funds side quantity price) :=
  match side with
  | .kBuy => inferInstanceAs (Decidable (quantity * price ≤ c.account_.balance))
  | .kSell => inferInstanceAs (Decidable (quantity ≤ c.account_.position))

/-- The account after the trade. -/
def paid (side : OrderSide) (quantity price : ℚ) (c : BacktestContext) : Account :=
  match side with
  | .kBuy => {
      balance := c.account_.balance - quantity * price
      position := c.account_.position + quantity * (1 - c.commission_) }
  | .kSell => {
      balance := c.account_.balance + quantity * price * (1 - c.commission_)
      position := c.account_.position - quantity }

theorem execute_buy_order_eq (quantity price : ℚ) (c : BacktestContext) :
    c.execute_buy_order quantity price =
      if c.Funds .kBuy quantity price then
        (true, { c with account_ := c.paid .kBuy quantity price })
      else (false, c) := by
  by_cases h : c.account_.balance < quantity * price
  · simp [execute_buy_order, Funds, h, not_le.mpr h]
  · simp [execute_buy_order, Funds, paid, Account.update_balance, Account.update_position, h,
      not_lt.mp h, sub_eq_add_neg]

theorem execute_sell_order_eq (quantity price : ℚ) (c : BacktestContext) :
    c.execute_sell_order quantity price =
      if c.Funds .kSell quantity price then
        (true, { c with account_ := c.paid .kSell quantity price })
      else (false, c) := by
  by_cases h : c.account_.position < quantity
  · simp [execute_sell_order, Funds, h, not_le.mpr h]
  · simp [execute_sell_order, Funds, paid, Account.update_balance, Account.update_position, h,
      not_lt.mp h, sub_eq_add_neg]

end BacktestContext

/-- The order is executed on the candle: the candle meets it, and the account can pay. -/
def OrderCall.Executes (c : BacktestContext) (candle : Candle) (order : OrderCall) : Prop :=
  order.meets candle = true ∧ c.Funds order.side order.quantity (order.fill_price candle)

instance (c : BacktestContext) (candle : Candle) (order : OrderCall) :
    Decidable (order.Executes c candle) := instDecidableAnd

/-- A look at an order trades, or it changes nothing. -/
theorem OrderCall.update_eq (c : BacktestContext) (candle : Candle) (order : OrderCall) :
    order.update c candle =
      if order.Executes c candle then
        (true, { c with
          account_ := c.paid order.side order.quantity (order.fill_price candle) })
      else (false, c) := by
  cases order with
  | limit_buy_order quantity price =>
    by_cases h : price < candle.low_price
    · simp [update, Executes, meets, h]
    · simp [update, Executes, meets, h, not_lt.mp h, side, OrderCall.quantity, fill_price,
        BacktestContext.execute_buy_order_eq]
  | limit_sell_order quantity price =>
    by_cases h : candle.high_price < price
    · simp [update, Executes, meets, h]
    · simp [update, Executes, meets, h, not_lt.mp h, side, OrderCall.quantity, fill_price,
        BacktestContext.execute_sell_order_eq]
  | market_buy_order quantity =>
    simp [update, Executes, meets, side, OrderCall.quantity, fill_price,
      BacktestContext.execute_buy_order_eq]
  | market_sell_order quantity =>
    simp [update, Executes, meets, side, OrderCall.quantity, fill_price,
      BacktestContext.execute_sell_order_eq]

theorem OrderCall.executes_iff {c : BacktestContext} {candle : Candle} {order : OrderCall} :
    (order.update c candle).1 = true ↔ order.Executes c candle := by
  rw [OrderCall.update_eq]
  by_cases h : order.Executes c candle
  · simp [h]
  · simp [h]

namespace BacktestRun

variable {σ : Type}

/-- The steps of a run, one by one. -/
inductive Move (S : IStrategy σ) (r : BacktestRun σ) : BacktestRun σ → Prop
  | start {candle : Candle} {rest : List Candle} : r.pc = .next →
      r.data_loader = candle :: rest →
      Move S r { r with
        pc := .visit (r.context.orders_.first) r.context.last_order_index_ candle
        data_loader := rest
        fills := 0 }
  | finish {last_index : OrderIndex} {candle : Candle} : r.pc = .visit none last_index candle →
      Move S r { r with pc := .swept candle }
  | bound {index last_index : OrderIndex} {candle : Candle} :
      r.pc = .visit (some index) last_index candle → last_index ≤ index →
      Move S r { r with pc := .swept candle }
  | pass {index last_index : OrderIndex} {candle : Candle} {order : OrderCall} :
      r.pc = .visit (some index) last_index candle → index < last_index →
      r.context.orders_.find index = some order → ¬ order.Executes r.context candle →
      Move S r { r with pc := .visit (r.context.orders_.next index) last_index candle }
  | trade {index last_index : OrderIndex} {candle : Candle} {order : OrderCall} :
      r.pc = .visit (some index) last_index candle → index < last_index →
      r.context.orders_.find index = some order → order.Executes r.context candle →
      Move S r { r with
        pc := .filled index last_index candle
        context := { r.context with
          account_ := r.context.paid order.side order.quantity (order.fill_price candle) }
        fills := r.fills + 1 }
  | lost {index last_index : OrderIndex} {candle : Candle} :
      (r.pc = .visit (some index) last_index candle ∧ index < last_index) ∨
        r.pc = .reported index last_index candle →
      index ∉ r.context.orders_.keys → Move S r { r with pc := .crashed .undefined }
  | report {index last_index : OrderIndex} {candle : Candle} :
      r.pc = .filled index last_index candle →
      Move S r (r.callback (S.on_order_filled index r.strategy)
        (.reported index last_index candle))
  | forget {index last_index : OrderIndex} {candle : Candle} :
      r.pc = .reported index last_index candle → index ∈ r.context.orders_.keys →
      Move S r { r with
        pc := .visit (r.context.orders_.next index) last_index candle
        context := r.context.cancel index }
  | update {candle : Candle} : r.pc = .swept candle →
      Move S r (r.callback (S.update candle r.strategy) .next)

theorem step_moves {S : IStrategy σ} {r r' : BacktestRun σ} (h : r.step S = some r') :
    Move S r r' := by
  unfold step at h
  rcases hpc : r.pc with _ | ⟨_ | index, last, candle⟩ | ⟨index, last, candle⟩ |
    ⟨index, last, candle⟩ | candle | fault <;> rw [hpc] at h <;> dsimp only at h
  · rcases hd : r.data_loader with _ | ⟨candle, rest⟩ <;> rw [hd] at h <;> cases h
    exact .start hpc hd
  · cases h
    exact .finish hpc
  · split at h
    · rcases hf : r.context.orders_.find index with _ | order <;> rw [hf] at h <;> dsimp only at h
      · cases h
        exact .lost (Or.inl ⟨hpc, ‹_›⟩) (Map.find_eq_none.mp hf)
      · rw [OrderCall.update_eq] at h
        by_cases hexec : order.Executes r.context candle
        · rw [if_pos hexec] at h
          cases h
          exact .trade hpc ‹_› hf hexec
        · rw [if_neg hexec] at h
          cases h
          exact .pass hpc ‹_› hf hexec
    · cases h
      exact .bound hpc (Nat.not_lt.mp ‹_›)
  · cases h
    exact .report hpc
  · split at h <;> cases h
    · exact .forget hpc ‹_›
    · exact .lost (Or.inr hpc) ‹_›
  · cases h
    exact .update hpc
  · cases h

theorem Move.step {S : IStrategy σ} {r r' : BacktestRun σ} (h : Move S r r') :
    r.step S = some r' := by
  cases h with
  | start hpc hd => simp [BacktestRun.step, hpc, hd]
  | finish hpc => simp [BacktestRun.step, hpc]
  | bound hpc hle => simp [BacktestRun.step, hpc, Nat.not_lt.mpr hle]
  | pass hpc hlt hfind hexec =>
    simp [BacktestRun.step, hpc, hlt, hfind, OrderCall.update_eq, hexec]
  | trade hpc hlt hfind hexec =>
    simp [BacktestRun.step, hpc, hlt, hfind, OrderCall.update_eq, hexec]
  | lost hpc hmem =>
    rcases hpc with ⟨hpc, hlt⟩ | hpc
    · simp [BacktestRun.step, hpc, hlt, Map.find_eq_none.mpr hmem]
    · simp [BacktestRun.step, hpc, hmem]
  | report hpc => simp [BacktestRun.step, hpc]
  | forget hpc hmem => simp [BacktestRun.step, hpc, hmem]
  | update hpc => simp [BacktestRun.step, hpc]

/-- The candle that the next step reads. -/
def reads (r : BacktestRun σ) (_ : Unit) : List Candle :=
  match r.pc with
  | .next => r.data_loader.head?.toList
  | _ => []

@[simp] theorem callback_data_loader (p : StrategyProg σ) (pc : BacktestPc) (r : BacktestRun σ) :
    (r.callback p pc).data_loader = r.data_loader := by
  unfold callback
  split <;> rfl

/-- A run uses the candles one after another. -/
theorem reads_step {S : IStrategy σ} {r r' : BacktestRun σ} (h : Step S r () r') :
    r.reads () ++ r'.data_loader = r.data_loader := by
  cases step_moves h with
  | start hpc hd => simp [reads, hpc, hd]
  | finish hpc | bound hpc | pass hpc | trade hpc | forget hpc => simp [reads, hpc]
  | lost hpc =>
    rcases hpc with ⟨hpc, _⟩ | hpc
    · simp [reads, hpc]
    · simp [reads, hpc]
  | report hpc | update hpc => simp [reads, hpc]

end BacktestRun

end wedge
