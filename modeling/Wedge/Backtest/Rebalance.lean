-- The grid in the old engine from a rebalance on, in closed form: the orders that
-- are open after some fills, and the account. One half of the value goes to the
-- balance and one half to the position, and the volume of a grid order is the
-- `grid_count`-th part of that position.
import Wedge.Backtest.Effects
import Wedge.Strategy.Grid

namespace wedge

open programs containers runs

/-! ## The levels of the grid -/

/-- The sells of the fills minus their buys. -/
def level (fills : List OrderSide) : ℤ := fills.count .kSell - fills.count .kBuy

@[simp] theorem level_nil : level [] = 0 := rfl

@[simp] theorem level_sell (fills : List OrderSide) :
    level (fills ++ [.kSell]) = level fills + 1 := by
  unfold level
  simp only [List.count_append, List.count_singleton]
  push_cast
  simp
  omega

@[simp] theorem level_buy (fills : List OrderSide) :
    level (fills ++ [.kBuy]) = level fills - 1 := by
  unfold level
  simp only [List.count_append, List.count_singleton]
  push_cast
  simp
  omega

/-! ## The rebalance -/

/-- What a grid starts from: the account, the configuration and the price. The position is so
far from its target that the first order makes up for the difference. -/
structure GridStart where
  account : Account
  commission : ℚ
  grid_count : ℤ
  grid_spacing : ℚ
  price : ℚ
  count_pos : 1 ≤ grid_count
  price_pos : 0 < price
  off_target : 7 ≤ |(account.balance + account.position * price) / price / 2 - account.position| *
    price

/-- A start without debts, with a commission below one and a band that stays above zero. -/
structure Rebalance extends GridStart where
  balance_nonneg : 0 ≤ account.balance
  position_nonneg : 0 ≤ account.position
  commission_nonneg : 0 ≤ commission
  commission_lt : commission < 1
  spacing_pos : 0 < grid_spacing
  band : grid_count * grid_spacing < 1

namespace GridStart

variable (p : GridStart)

def target_position : ℚ := (p.account.balance + p.account.position * p.price) / p.price / 2

/-- The volume of each order of the grid. -/
def volume : ℚ := p.target_position / p.grid_count

def spacing : ℚ := p.grid_spacing * p.price

def initial_order : OrderCall :=
  if p.target_position < p.account.position then
    .limit_sell_order (p.account.position - p.target_position) p.price
  else .limit_buy_order (p.target_position - p.account.position) p.price

/-- The position behind the initial order. -/
def start_position : ℚ :=
  if p.target_position < p.account.position then p.target_position
  else p.account.position + (p.target_position - p.account.position) * (1 - p.commission)

theorem target_mul_price :
    p.target_position * p.price = (p.account.balance + p.account.position * p.price) / 2 := by
  have := p.price_pos.ne'
  unfold target_position
  field_simp

theorem count_pos' : (0 : ℚ) < p.grid_count := by
  have := p.count_pos
  exact_mod_cast this

theorem volume_mul_count : p.volume * p.grid_count = p.target_position :=
  div_mul_cancel₀ _ p.count_pos'.ne'

/-! ## The account along a walk -/

/-- The price of the last fill. -/
def price_at (fills : List OrderSide) : ℚ := p.price + level fills * p.spacing

/-- The balance after the fills, without a commission. Each fill earns half a spacing more than
the way back to the level of the start costs. -/
def balance_at (fills : List OrderSide) : ℚ :=
  p.volume * (p.price * (p.grid_count + level fills) +
    p.spacing * ((level fills : ℚ) ^ 2 + fills.length) / 2)

def position_at (fills : List OrderSide) : ℚ :=
  p.start_position +
    p.volume * ((1 - p.commission) * fills.count .kBuy - fills.count .kSell)

/-- The account after the initial order and the fills. -/
structure Holds (fills : List OrderSide) (account : Account) : Prop where
  position : account.position = p.position_at fills
  balance : p.commission = 0 → account.balance = p.balance_at fills

theorem balance_sell (fills : List OrderSide) :
    p.balance_at (fills ++ [.kSell]) =
      p.balance_at fills + p.volume * (p.price_at fills + p.spacing) := by
  unfold balance_at price_at
  rw [level_sell, List.length_append, List.length_singleton]
  push_cast
  ring

theorem balance_buy (fills : List OrderSide) :
    p.balance_at (fills ++ [.kBuy]) =
      p.balance_at fills - p.volume * (p.price_at fills - p.spacing) := by
  unfold balance_at price_at
  rw [level_buy, List.length_append, List.length_singleton]
  push_cast
  ring

theorem position_sell (fills : List OrderSide) :
    p.position_at (fills ++ [.kSell]) = p.position_at fills - p.volume := by
  unfold position_at
  rw [List.count_append, List.count_append]
  simp
  ring

theorem position_buy (fills : List OrderSide) :
    p.position_at (fills ++ [.kBuy]) =
      p.position_at fills + p.volume * (1 - p.commission) := by
  unfold position_at
  rw [List.count_append, List.count_append]
  simp
  ring

/-- Without a commission the position is as many volumes as there are levels above. -/
theorem position_at_eq (hc : p.commission = 0) (fills : List OrderSide) :
    p.position_at fills = p.volume * (p.grid_count - level fills) := by
  have hstart : p.start_position = p.target_position := by
    unfold start_position
    split
    · rfl
    · rw [hc]
      ring
  unfold position_at level
  rw [hstart, ← p.volume_mul_count, hc]
  push_cast
  ring

end GridStart

namespace Rebalance

variable (p : Rebalance)

theorem target_pos : 0 < p.target_position := by
  have hoff := p.off_target
  have hprice := p.price_pos
  have hposition := mul_nonneg p.position_nonneg hprice.le
  have hvalue := p.target_mul_price
  change 7 ≤ |p.target_position - p.account.position| * p.price at hoff
  have habs : |p.target_position - p.account.position| * p.price =
      |(p.target_position - p.account.position) * p.price| := by
    rw [abs_mul, abs_of_pos hprice]
  rw [habs, sub_mul, hvalue] at hoff
  have hsum : 0 < p.target_position * p.price := by
    rw [hvalue]
    rcases le_abs.mp hoff with h | h
    · linarith
    · linarith [p.balance_nonneg]
  exact (pos_iff_pos_of_mul_pos hsum).mpr hprice

theorem volume_pos : 0 < p.volume := div_pos p.target_pos p.count_pos'

theorem spacing_pos' : 0 < p.spacing := mul_pos p.spacing_pos p.price_pos

/-- The commission of a buy is missing in the position. -/
theorem start_position_le : p.start_position ≤ p.target_position := by
  unfold GridStart.start_position
  split
  · exact le_rfl
  · rename_i h
    have := mul_nonneg (sub_nonneg.mpr (not_lt.mp h)) p.commission_nonneg
    linarith

/-- The account can pay for the initial order. -/
theorem initial_funds {c : BacktestContext} (hc : c.account_ = p.account) :
    c.Funds p.initial_order.side p.initial_order.quantity p.price := by
  unfold GridStart.initial_order
  split
  · change p.account.position - p.target_position ≤ c.account_.position
    rw [hc]
    linarith [p.target_pos]
  · change (p.target_position - p.account.position) * p.price ≤ c.account_.balance
    have := mul_nonneg p.position_nonneg p.price_pos.le
    rw [hc, sub_mul, p.target_mul_price]
    linarith [p.balance_nonneg]

/-- No level within the band has a negative balance. -/
theorem balance_nonneg_of_level {fills : List OrderSide} (h : -p.grid_count ≤ level fills) :
    0 ≤ p.balance_at fills := by
  have hlevel : (0 : ℚ) ≤ p.grid_count + level fills := by
    have : 0 ≤ p.grid_count + level fills := by omega
    exact_mod_cast this
  have hearned := mul_nonneg p.spacing_pos'.le
    (add_nonneg (sq_nonneg (level fills : ℚ)) (Nat.cast_nonneg fills.length))
  apply mul_nonneg p.volume_pos.le
  apply add_nonneg (mul_nonneg p.price_pos.le hlevel)
  linarith

end Rebalance

/-! ## The orders along a walk -/

namespace GridStart

variable (p : GridStart)

/-- The open orders after the initial order and the fills, or before the initial order is
filled. The indices start at `i`. -/
def open_orders (i : OrderIndex) : List OrderSide → List (OrderIndex × OrderCall)
  | [] => [(i, p.initial_order)]
  | _ :: fills => [(i, .limit_sell_order p.volume (p.price_at fills + p.spacing)),
      (i + 1, .limit_buy_order p.volume (p.price_at fills - p.spacing))]

def sell_slot (i : OrderIndex) : List OrderSide → Option OrderInfo
  | [] => if p.target_position < p.account.position then some ⟨i, p.price⟩ else none
  | _ :: fills => some ⟨i, p.price_at fills + p.spacing⟩

def buy_slot (i : OrderIndex) : List OrderSide → Option OrderInfo
  | [] => if p.target_position < p.account.position then none else some ⟨i, p.price⟩
  | _ :: fills => some ⟨i + 1, p.price_at fills - p.spacing⟩

/-- The configuration of the strategy, and its slots. -/
structure Slotted (i : OrderIndex) (log : List OrderSide) (g : GridStrategy) : Prop where
  count : g.grid_count_ = p.grid_count
  spacing : g.grid_spacing_ = p.grid_spacing
  baseline : g.baseline_price_ = p.price
  volume : g.order_volume_ = p.volume
  sell : g.sell_order_ = p.sell_slot i log
  buy : g.buy_order_ = p.buy_slot i log

/-- The strategy and the engine between two callbacks. -/
structure Open (i : OrderIndex) (log : List OrderSide) (g : GridStrategy)
    (c : BacktestContext) : Prop where
  slotted : p.Slotted i log g
  orders : c.orders_.entries = p.open_orders i log
  last : c.last_order_index_ = i + (p.open_orders i log).length

/-- The strategy just before `place_initial_orders`. What it had before does not matter. -/
def strategy (g : GridStrategy) : GridStrategy :=
  { g with
    grid_count_ := p.grid_count
    grid_spacing_ := p.grid_spacing
    baseline_price_ := p.price
    buy_order_ := none
    sell_order_ := none }

/-- The engine after `place_initial_orders`. -/
def placed (g : GridStrategy) (index : OrderIndex) (candles : List Candle) :
    BacktestRun GridStrategy :=
  BacktestRun.callback ((p.strategy g).place_initial_orders p.price) .next {
    data_loader := candles
    context := { account_ := p.account, commission_ := p.commission, last_order_index_ := index }
    strategy := p.strategy g }

theorem place_initial_orders_eq (g : GridStrategy) {c : BacktestContext}
    (hc : c.account_ = p.account) :
    run BacktestBroker ((p.strategy g).place_initial_orders p.price) c =
      (.ok { p.strategy g with
          order_volume_ := p.volume
          order_balance := 0
          sell_order_ := p.sell_slot c.last_order_index_ []
          buy_order_ := p.buy_slot c.last_order_index_ [] },
        (c.add_order p.initial_order).2) := by
  have hoff := not_lt.mpr p.off_target
  unfold GridStrategy.place_initial_orders
  rw [run_bind_ok (a := c.account_) (t := c) BacktestBroker rfl, hc]
  dsimp only
  rw [if_neg hoff]
  by_cases h : p.target_position < p.account.position
  · have h' := h
    unfold target_position at h'
    rw [if_pos h']
    simp only [initial_order, sell_slot, buy_slot, if_pos h]
    rfl
  · have h' := h
    unfold target_position at h'
    rw [if_neg h']
    simp only [initial_order, sell_slot, buy_slot, if_neg h]
    rfl

end GridStart

/-! ## The callbacks -/

theorem GridStrategy.cancel_all_orders_eq (g : GridStrategy) (c : BacktestContext) :
    run BacktestBroker g.cancel_all_orders c =
      (.ok { g with buy_order_ := none, sell_order_ := none },
        { c with
          orders_ := (g.buy_order_.toList ++ g.sell_order_.toList).foldl
            (fun orders o => orders.erase o.index) c.orders_ }) := by
  rcases g with ⟨_, _, _, _, _, _ | b, _ | s, _⟩ <;> rfl

theorem GridStrategy.place_order_eq {g : GridStrategy} (hb : g.buy_order_ = none)
    (hs : g.sell_order_ = none) (price : ℚ) (c : BacktestContext) :
    run BacktestBroker (g.place_order id price) c =
      (.ok { g with
          sell_order_ := some {
            index := c.last_order_index_
            price := price + g.grid_spacing_ * g.baseline_price_ }
          buy_order_ := some {
            index := c.last_order_index_ + 1
            price := price - g.grid_spacing_ * g.baseline_price_ } },
        ((c.add_order (.limit_sell_order g.order_volume_
          (price + g.grid_spacing_ * g.baseline_price_))).2.add_order
            (.limit_buy_order g.order_volume_
              (price - g.grid_spacing_ * g.baseline_price_))).2) := by
  simp [GridStrategy.place_order, GridStrategy.place_sell_order, GridStrategy.place_buy_order, hb,
    hs, IBroker.limit_sell_order, IBroker.limit_buy_order, run, BacktestBroker, Prog.ask, bind,
    Prog.bind, BacktestContext.add_order]

/-- The strategy without the slots that the filled order was in. -/
def GridStrategy.without (index : OrderIndex) (g : GridStrategy) : GridStrategy :=
  ((g.take_filled_buy index).2.take_filled_sell index).2

theorem GridStrategy.without_eq (index : OrderIndex) (g : GridStrategy) :
    ∃ n b s, g.without index =
      { g with order_balance := n, buy_order_ := b, sell_order_ := s } := by
  unfold GridStrategy.without GridStrategy.take_filled_sell GridStrategy.take_filled_buy
  split <;> split <;> (try split) <;> (try split) <;> exact ⟨_, _, _, rfl⟩

theorem GridStrategy.on_order_filled_eq {g : GridStrategy} {index : OrderIndex} {price : ℚ}
    (hprice : ((g.take_filled_buy index).2.take_filled_sell index).1.or
      (g.take_filled_buy index).1 = some price) (c : BacktestContext) :
    run BacktestBroker (g.on_order_filled id index) c =
      run BacktestBroker
        (({ g.without index with buy_order_ := none, sell_order_ := none } :
          GridStrategy).place_order id price)
        { c with
          orders_ := ((g.without index).buy_order_.toList ++
            (g.without index).sell_order_.toList).foldl
              (fun orders o => orders.erase o.index) c.orders_ } := by
  unfold GridStrategy.on_order_filled
  simp only [hprice]
  exact run_bind_ok BacktestBroker ((g.without index).cancel_all_orders_eq c) _

theorem BacktestContext.add_order_entries {c : BacktestContext}
    (h : ∀ j ∈ c.orders_.keys, j < c.last_order_index_) (order : OrderCall) :
    (c.add_order order).2.orders_.entries = c.orders_.entries ++ [(c.last_order_index_, order)] :=
  emplace_last h order

namespace GridStart

variable {p : GridStart}

theorem price_at_nil : p.price_at [] = p.price := by
  simp [price_at]

theorem price_at_sell (fills : List OrderSide) :
    p.price_at (fills ++ [.kSell]) = p.price_at fills + p.spacing := by
  unfold price_at
  rw [level_sell]
  push_cast
  ring

theorem price_at_buy (fills : List OrderSide) :
    p.price_at (fills ++ [.kBuy]) = p.price_at fills - p.spacing := by
  unfold price_at
  rw [level_buy]
  push_cast
  ring

/-- Around the price of the last fill the strategy places the next two orders. -/
theorem place_order_open (first : OrderSide) (fills : List OrderSide) {g : GridStrategy}
    {c : BacktestContext} {e : OrderIndex × OrderCall} (hcount : g.grid_count_ = p.grid_count)
    (hspacing : g.grid_spacing_ = p.grid_spacing) (hbaseline : g.baseline_price_ = p.price)
    (hvolume : g.order_volume_ = p.volume) (hb : g.buy_order_ = none) (hs : g.sell_order_ = none)
    (horders : c.orders_.entries = [e]) (hlt : e.1 < c.last_order_index_) :
    ∃ g' c', run BacktestBroker (g.place_order id (p.price_at fills)) c = (.ok g', c') ∧
      p.Slotted c.last_order_index_ (first :: fills) g' ∧
      c'.orders_.entries = e :: p.open_orders c.last_order_index_ (first :: fills) ∧
      c'.last_order_index_ = c.last_order_index_ + 2 ∧ c'.account_ = c.account_ ∧
      c'.commission_ = c.commission_ ∧ g'.index_ = g.index_ := by
  have hkeys : ∀ j ∈ c.orders_.keys, j < c.last_order_index_ := by
    unfold Map.keys
    rw [horders]
    simpa using hlt
  refine ⟨_, _, GridStrategy.place_order_eq hb hs _ c, ?_, ?_, rfl, rfl, rfl, rfl⟩
  · refine ⟨hcount, hspacing, hbaseline, hvolume, ?_, ?_⟩ <;> simp only [hspacing, hbaseline] <;>
      rfl
  · have hentries := BacktestContext.add_order_entries hkeys
      (.limit_sell_order g.order_volume_
        (p.price_at fills + g.grid_spacing_ * g.baseline_price_))
    rw [BacktestContext.add_order_entries, hentries, horders, hspacing, hbaseline, hvolume]
    · rfl
    · intro j hj
      unfold Map.keys at hj
      rw [hentries, horders] at hj
      rcases (by simpa using hj : j = e.1 ∨ j = c.last_order_index_) with rfl | rfl
      · exact Nat.lt_succ_of_lt hlt
      · exact Nat.lt_succ_self _

/-- What a callback for the filled order `e` comes to when its price is the price of the new
level, and when no other order is left after the cancels. -/
theorem report_of_taken {g : GridStrategy} {c : BacktestContext} {i : OrderIndex}
    {log fills : List OrderSide} {first : OrderSide} {e : OrderIndex × OrderCall}
    (hslot : p.Slotted i log g)
    (hprice : ((g.take_filled_buy e.1).2.take_filled_sell e.1).1.or
      (g.take_filled_buy e.1).1 = some (p.price_at fills))
    (horders : (((g.without e.1).buy_order_.toList ++ (g.without e.1).sell_order_.toList).foldl
      (fun orders o => orders.erase o.index) c.orders_).entries = [e])
    (hlt : e.1 < c.last_order_index_) :
    ∃ g' c', run BacktestBroker (g.on_order_filled id e.1) c = (.ok g', c') ∧
      p.Slotted c.last_order_index_ (first :: fills) g' ∧
      c'.orders_.entries = e :: p.open_orders c.last_order_index_ (first :: fills) ∧
      c'.last_order_index_ = c.last_order_index_ + 2 ∧ c'.account_ = c.account_ ∧
      c'.commission_ = c.commission_ ∧ g'.index_ = g.index_ := by
  obtain ⟨n, b, s, hg⟩ := g.without_eq e.1
  rw [GridStrategy.on_order_filled_eq hprice]
  have hcount : (g.without e.1).grid_count_ = p.grid_count := by
    rw [hg]
    exact hslot.count
  have hspacing : (g.without e.1).grid_spacing_ = p.grid_spacing := by
    rw [hg]
    exact hslot.spacing
  have hbaseline : (g.without e.1).baseline_price_ = p.price := by
    rw [hg]
    exact hslot.baseline
  have hvolume : (g.without e.1).order_volume_ = p.volume := by
    rw [hg]
    exact hslot.volume
  have hindex : (g.without e.1).index_ = g.index_ := by
    rw [hg]
  obtain ⟨g', c', hrun, hslot', horders', hlast, haccount, hcommission, hindex'⟩ :=
    place_order_open first fills (p := p) (e := e)
      (g := { g.without e.1 with buy_order_ := none, sell_order_ := none })
      (c := { c with
        orders_ := ((g.without e.1).buy_order_.toList ++
          (g.without e.1).sell_order_.toList).foldl
            (fun orders o => orders.erase o.index) c.orders_ })
      hcount hspacing hbaseline hvolume rfl rfl horders hlt
  exact ⟨g', c', hrun, hslot', horders', hlast, haccount, hcommission, hindex'.trans hindex⟩

/-- The callback for a filled order leaves that order alone with the next two. -/
theorem Open.report {i : OrderIndex} {log : List OrderSide} {g : GridStrategy}
    {c : BacktestContext} (h : p.Open i log g c) {e : OrderIndex × OrderCall}
    (he : e ∈ p.open_orders i log) :
    ∃ g' c', run BacktestBroker (g.on_order_filled id e.1) c = (.ok g', c') ∧
      p.Slotted c.last_order_index_ (log ++ [e.2.side]) g' ∧
      c'.orders_.entries = e :: p.open_orders c.last_order_index_ (log ++ [e.2.side]) ∧
      c'.last_order_index_ = c.last_order_index_ + 2 ∧ c'.account_ = c.account_ ∧
      c'.commission_ = c.commission_ ∧ g'.index_ = g.index_ := by
  obtain ⟨hslot, horders, hlast⟩ := h
  have hs := hslot.sell
  have hb := hslot.buy
  rcases log with _ | ⟨first, fills⟩
  · -- The initial order.
    cases List.mem_singleton.mp he
    have hlt : i < c.last_order_index_ := by
      rw [hlast]
      exact Nat.lt_succ_self i
    by_cases hsell : p.target_position < p.account.position
    · simp only [sell_slot, buy_slot, if_pos hsell] at hs hb
      refine report_of_taken (e := (i, p.initial_order)) hslot ?_ ?_ hlt
      · simp [GridStrategy.take_filled_buy, GridStrategy.take_filled_sell, hs, hb, price_at_nil]
      · simp [GridStrategy.without, GridStrategy.take_filled_buy, GridStrategy.take_filled_sell, hs,
          hb, horders, open_orders]
    · simp only [sell_slot, buy_slot, if_neg hsell] at hs hb
      refine report_of_taken (e := (i, p.initial_order)) hslot ?_ ?_ hlt
      · simp [GridStrategy.take_filled_buy, GridStrategy.take_filled_sell, hs, hb, price_at_nil]
      · simp [GridStrategy.without, GridStrategy.take_filled_buy, GridStrategy.take_filled_sell, hs,
          hb, horders, open_orders]
  · have hentries : c.orders_.entries = [(i, _), (i + 1, _)] := horders
    have hlt : i + 1 < c.last_order_index_ := by
      rw [hlast]
      exact Nat.lt_succ_self (i + 1)
    simp only [sell_slot, buy_slot] at hs hb
    rcases List.mem_pair.mp he with rfl | rfl
    · -- A sell of the grid.
      have hprice : ((g.take_filled_buy i).2.take_filled_sell i).1.or (g.take_filled_buy i).1 =
          some (p.price_at (fills ++ [.kSell])) := by
        rw [price_at_sell]
        simp [GridStrategy.take_filled_buy, GridStrategy.take_filled_sell, hs, hb]
      refine report_of_taken hslot hprice ?_ (Nat.lt_of_succ_lt hlt)
      simp [GridStrategy.without, GridStrategy.take_filled_buy, GridStrategy.take_filled_sell, hs,
        hb, hentries, Map.erase]
    · have hprice : ((g.take_filled_buy (i + 1)).2.take_filled_sell (i + 1)).1.or
          (g.take_filled_buy (i + 1)).1 = some (p.price_at (fills ++ [.kBuy])) := by
        rw [price_at_buy]
        simp [GridStrategy.take_filled_buy, GridStrategy.take_filled_sell, hs, hb]
      refine report_of_taken hslot hprice ?_ hlt
      simp [GridStrategy.without, GridStrategy.take_filled_buy, GridStrategy.take_filled_sell, hs,
        hb, hentries, Map.erase]

/-! ## The books -/

/-- The engine has the account of the walk so far. -/
structure Booked (log : List OrderSide) (c : BacktestContext) : Prop where
  commission : c.commission_ = p.commission
  account : match log with
    | [] => c.account_ = p.account
    | _ :: fills => p.Holds fills c.account_

theorem Booked.of_account {log : List OrderSide} {c c' : BacktestContext} (h : p.Booked log c)
    (haccount : c'.account_ = c.account_) (hcommission : c'.commission_ = c.commission_) :
    p.Booked log c' := by
  refine ⟨hcommission.trans h.commission, ?_⟩
  rw [haccount]
  exact h.account

theorem Holds.sell {fills : List OrderSide} {c : BacktestContext}
    (hcommission : c.commission_ = p.commission) (h : p.Holds fills c.account_) :
    p.Holds (fills ++ [.kSell]) (c.paid .kSell p.volume (p.price_at fills + p.spacing)) := by
  refine ⟨?_, fun hc => ?_⟩
  · change c.account_.position - p.volume = _
    rw [position_sell, h.position]
  · change c.account_.balance + p.volume * (p.price_at fills + p.spacing) * (1 - c.commission_) = _
    rw [balance_sell, h.balance hc, hcommission, hc]
    ring

theorem Holds.buy {fills : List OrderSide} {c : BacktestContext}
    (hcommission : c.commission_ = p.commission) (h : p.Holds fills c.account_) :
    p.Holds (fills ++ [.kBuy]) (c.paid .kBuy p.volume (p.price_at fills - p.spacing)) := by
  refine ⟨?_, fun hc => ?_⟩
  · change c.account_.position + p.volume * (1 - c.commission_) = _
    rw [position_buy, h.position, hcommission]
  · change c.account_.balance - p.volume * (p.price_at fills - p.spacing) = _
    rw [balance_buy, h.balance hc]

/-- Half of the value is in the balance after the initial order. -/
theorem Holds.initial {c : BacktestContext} (hcommission : c.commission_ = p.commission)
    (haccount : c.account_ = p.account) :
    p.Holds [] (c.paid p.initial_order.side p.initial_order.quantity p.price) := by
  have hhalf : p.balance_at [] =
      (p.account.balance + p.account.position * p.price) / 2 := by
    rw [← p.target_mul_price, ← p.volume_mul_count]
    simp [balance_at]
    ring
  have htarget := p.target_mul_price
  have hposition : p.position_at [] = p.start_position := by
    simp [position_at]
  unfold initial_order
  by_cases hsell : p.target_position < p.account.position
  · rw [if_pos hsell]
    refine ⟨?_, fun hc => ?_⟩
    · change c.account_.position - (p.account.position - p.target_position) = _
      rw [hposition, start_position, if_pos hsell, haccount]
      ring
    · change c.account_.balance + (p.account.position - p.target_position) * p.price *
        (1 - c.commission_) = _
      rw [hhalf, haccount, hcommission, hc]
      linarith
  · rw [if_neg hsell]
    refine ⟨?_, fun hc => ?_⟩
    · change c.account_.position + (p.target_position - p.account.position) *
        (1 - c.commission_) = _
      rw [hposition, start_position, if_neg hsell, haccount, hcommission]
    · change c.account_.balance - (p.target_position - p.account.position) * p.price = _
      rw [hhalf, haccount]
      linarith

theorem initial_fill_price (candle : Candle) : p.initial_order.fill_price candle = p.price := by
  unfold initial_order
  split <;> rfl

/-- The trade of an open order. -/
theorem Booked.trade {log : List OrderSide} {c : BacktestContext} (h : p.Booked log c)
    {i : OrderIndex} {e : OrderIndex × OrderCall} (he : e ∈ p.open_orders i log)
    (candle : Candle) :
    p.Booked (log ++ [e.2.side])
      { c with account_ := c.paid e.2.side e.2.quantity (e.2.fill_price candle) } := by
  refine ⟨h.commission, ?_⟩
  rcases log with _ | ⟨first, fills⟩
  · cases List.mem_singleton.mp he
    change p.Holds [] (c.paid _ _ (p.initial_order.fill_price candle))
    rw [initial_fill_price]
    exact Holds.initial h.commission h.account
  · rcases List.mem_pair.mp he with rfl | rfl
    · exact Holds.sell h.commission h.account
    · exact Holds.buy h.commission h.account

end GridStart

/-- Without a commission the account can pay for every order that leads to a level in the
band. -/
theorem Rebalance.funds (p : Rebalance) {first : OrderSide} {fills : List OrderSide}
    {c : BacktestContext} (h : p.Booked (first :: fills) c) (hc : p.commission = 0) {i : OrderIndex}
    {e : OrderIndex × OrderCall} (he : e ∈ p.open_orders i (first :: fills))
    (hlevel : |level (fills ++ [e.2.side])| ≤ p.grid_count) (candle : Candle) :
    c.Funds e.2.side e.2.quantity (e.2.fill_price candle) := by
  obtain ⟨hlow, hhigh⟩ := abs_le.mp hlevel
  have haccount : p.Holds fills c.account_ := h.account
  rcases List.mem_pair.mp he with rfl | rfl
  · -- One more level up needs one more volume.
    change p.volume ≤ c.account_.position
    change level (fills ++ [.kSell]) ≤ p.grid_count at hhigh
    rw [level_sell] at hhigh
    have hlevels : (1 : ℚ) ≤ p.grid_count - level fills := by
      have : 1 ≤ p.grid_count - level fills := by omega
      exact_mod_cast this
    rw [haccount.position, p.position_at_eq hc]
    exact le_mul_of_one_le_right p.volume_pos.le hlevels
  · change p.volume * (p.price_at fills - p.spacing) ≤ c.account_.balance
    change -p.grid_count ≤ level (fills ++ [.kBuy]) at hlow
    have hnonneg := p.balance_nonneg_of_level hlow
    rw [GridStart.balance_buy] at hnonneg
    rw [haccount.balance hc]
    linarith

end wedge
