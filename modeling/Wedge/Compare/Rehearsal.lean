-- Whole runs of the live engine and of the old backtest engine with one strategy. When the
-- exchange trades an order in the intervals in which the backtest does, a backtest over
-- the candles of the intervals goes through the callbacks of the live run.
import Wedge.Backtest.History
import Wedge.Compare.Sweeps
import Wedge.Trade.Exchange

namespace wedge

open programs containers runs history

variable {σ ν : Type}

/-! ## The live engine before a market -/

/-- `candles` holds the candles of the intervals to come, with the current one in front. `account`
is what the reported fills make of the first account, and `bound` is the next index at the start of
the traversal. -/
structure MarketRun (σ ν : Type) where
  live : TradeRun σ ν
  account : Account
  candles : List Candle
  bound : OrderIndex := 0

/-- The orders of the live engine as they were placed. -/
def TradeEngine.calls (e : TradeEngine ν) : Map OrderIndex OrderCall :=
  e.orders_.view TradeOrder.order

/-- The order under the index is in the map, and the candle meets it. -/
def met (candle : Candle) (orders : Map OrderIndex OrderCall) (k : OrderIndex) : Bool :=
  (orders.find k).any (OrderCall.meets candle)

/-- The account after a trade of the order on the candle. -/
def traded_account (commission : ℚ) (candle : Candle) (order : OrderCall) (account : Account) :
    Account :=
  BacktestContext.paid order.side order.quantity (order.fill_price candle)
    { account_ := account, commission_ := commission }

/-- An answer about the account is this account. -/
def ReadsAccount (net : Net ν) (account : Account) : BrokerCall → TradeEngine ν → Prop
  | .account, e => ∀ a ∈ (TradeBroker.account net e).1.toOption, a = account
  | _, _ => True

instance (net : Net ν) (account : Account) (op : BrokerCall) (e : TradeEngine ν) :
    Decidable (ReadsAccount net account op e) := by
  unfold ReadsAccount
  cases op <;> infer_instance

namespace MarketRun

/-- The account, the candles and the bound behind a step of the engine. -/
def after (commission : ℚ) (x : MarketRun σ ν) (live : TradeRun σ ν) : MarketRun σ ν :=
  match x.live.pc with
  | .idle => { x with live := live, bound := x.live.engine.last_order_index_ }
  | .visit (some k) =>
    match x.candles.head?, x.live.engine.calls.find k with
    | some candle, some order => { x with
        live := live
        account := if order.meets candle then traded_account commission candle order x.account
          else x.account }
    | _, _ => { x with live := live }
  | .fetched _ => { x with live := live, candles := x.candles.tail }
  | _ => { x with live := live }

def step (S : IStrategy σ) (net : Net ν) (p : Placement OrderIndex TradeOrder) (commission : ℚ)
    (now : ℤ) (x : MarketRun σ ν) : Option (MarketRun σ ν) :=
  (x.live.step S net p now).map (x.after commission)

def Step (S : IStrategy σ) (net : Net ν) (p : Placement OrderIndex TradeOrder) (commission : ℚ)
    (x : MarketRun σ ν) (now : ℤ) (y : MarketRun σ ν) : Prop :=
  x.step S net p commission now = some y

/-- A poll that is answered has the outcome of the candle, and there are funds for a fill. -/
def Fills (net : Net ν) (commission : ℚ) (x : MarketRun σ ν) (candle : Candle)
    (order : TradeOrder) : Prop :=
  (∀ filled ∈ (x.live.engine.poll net order).1.toOption, filled = order.order.meets candle) ∧
    (order.order.meets candle = true → BacktestContext.Funds order.order.side
      order.order.quantity (order.order.fill_price candle)
      { account_ := x.account, commission_ := commission })

/-- The exchange goes with the candle: the polls have its outcomes, and the first order that it
fills from the iterator on is the least one. An answer about the account is what the fills have
made of it, and the candle comes at the end of the interval. -/
def GoesWith (S : IStrategy σ) (net : Net ν) (p : Placement OrderIndex TradeOrder) (commission : ℚ)
    (x : MarketRun σ ν) (candle : Candle) : Prop :=
  match x.live.pc with
  | .visit iterator =>
    (x.live.engine.orders_.rest iterator).find? (met candle x.live.engine.calls) =
        least_filled (met candle x.live.engine.calls) x.bound x.live.engine.orders_.keys ∧
      ∀ k ∈ iterator, ∀ order ∈ x.live.engine.orders_.find k, x.Fills net commission candle order
  | .filled k => Obeys (TradeBroker net p) (ReadsAccount net x.account)
      (S.on_order_filled k x.live.strategy) x.live.engine
  | .fetched c => c = candle ∧ Obeys (TradeBroker net p) (ReadsAccount net x.account)
      (S.update c x.live.strategy) x.live.engine
  | _ => True

/-- There is a candle for the interval, and the exchange goes with it. -/
def Goes (S : IStrategy σ) (net : Net ν) (p : Placement OrderIndex TradeOrder) (commission : ℚ)
    (x : MarketRun σ ν) (_ : ℤ) : Prop :=
  ∃ candle ∈ x.candles.head?, x.GoesWith S net p commission candle

instance (net : Net ν) (commission : ℚ) (x : MarketRun σ ν) (candle : Candle)
    (order : TradeOrder) : Decidable (x.Fills net commission candle order) := by
  unfold Fills
  infer_instance

instance (S : IStrategy σ) (net : Net ν) (p : Placement OrderIndex TradeOrder) (commission : ℚ)
    (x : MarketRun σ ν) (candle : Candle) : Decidable (x.GoesWith S net p commission candle) := by
  unfold GoesWith
  rcases x.live.pc with _ | _ | _ | _ | _ | _ | _ <;> infer_instance

instance (S : IStrategy σ) (net : Net ν) (p : Placement OrderIndex TradeOrder) (commission : ℚ)
    (x : MarketRun σ ν) (now : ℤ) : Decidable (x.Goes S net p commission now) := by
  unfold Goes
  infer_instance

/-- A new live engine before a market. -/
def start (symbol : String) (broker : BinanceBroker) (world : ν) (strategy : σ)
    (account : Account) (candles : List Candle) : MarketRun σ ν where
  live := TradeRun.start symbol broker world strategy
  account := account
  candles := candles

end MarketRun

/-! ## The orders of the two engines -/

theorem find_congr {m m' : Map OrderIndex OrderCall} (h : ∀ e, e ∈ m ↔ e ∈ m') (k : OrderIndex) :
    m.find k = m'.find k := by
  rcases hf : m'.find k with _ | order
  · rw [Map.find_eq_none] at hf ⊢
    intro hk
    obtain ⟨order, ho⟩ := Map.mem_keys.mp hk
    exact hf (Map.mem_keys.mpr ⟨order, (h _).mp ho⟩)
  · exact Map.find_of_mem ((h _).mpr (Map.mem_of_find hf))

theorem met_congr {m m' : Map OrderIndex OrderCall} (h : ∀ e, e ∈ m ↔ e ∈ m') (candle : Candle) :
    met candle m = met candle m' := by
  funext k
  unfold met
  rw [find_congr h k]

theorem TradeEngine.calls_find (e : TradeEngine ν) (k : OrderIndex) :
    e.calls.find k = (e.orders_.find k).map TradeOrder.order := by
  rcases hf : e.orders_.find k with _ | order
  · rw [Option.map_none, Map.find_eq_none]
    rw [Map.find_eq_none] at hf
    unfold calls
    rwa [Map.keys_view]
  · refine Map.find_of_mem ?_
    exact List.mem_map_of_mem (f := fun e : OrderIndex × TradeOrder => (e.1, e.2.order))
      (Map.mem_of_find hf)

/-- Both engines hold the same orders under the same indices. -/
structure SameOrders (bound : OrderIndex) (e : TradeEngine ν) (c : BacktestContext) : Prop where
  index : e.last_order_index_ = c.last_order_index_
  orders : ∀ x, x ∈ c.orders_ ↔ x ∈ e.calls
  fits : c.Fits bound
  ascending : c.orders_.Ascending

section orders

variable {bound k : OrderIndex} {e e' : TradeEngine ν} {c c' : BacktestContext}

theorem SameOrders.keys (h : SameOrders bound e c) (k : OrderIndex) :
    k ∈ c.orders_.keys ↔ k ∈ e.orders_.keys := by
  have hview : e.calls.keys = e.orders_.keys := Map.keys_view _ _
  rw [← hview, Map.mem_keys, Map.mem_keys]
  exact exists_congr fun order => h.orders _

theorem SameOrders.congr (h : SameOrders bound e c) (ho : e'.orders_ = e.orders_)
    (hi : e'.last_order_index_ = e.last_order_index_) (ho' : c'.orders_ = c.orders_)
    (hi' : c'.last_order_index_ = c.last_order_index_) : SameOrders bound e' c' := by
  obtain ⟨h1, h2, ⟨h3, h4⟩, h5⟩ := h
  refine ⟨by rw [hi, hi', h1], fun x => ?_, ⟨by rw [hi']; exact h3, ?_⟩, by rw [ho']; exact h5⟩
  · unfold TradeEngine.calls
    rw [ho', ho]
    exact h2 x
  · rw [ho', hi']
    exact h4

theorem SameOrders.erase (h : SameOrders bound e c) (k : OrderIndex)
    (ho : e'.orders_ = e.orders_.erase k) (hi : e'.last_order_index_ = e.last_order_index_) :
    SameOrders bound e' (c.cancel k) := by
  refine ⟨hi.trans h.index, fun x => ?_, h.fits.cancel k, h.ascending.erase k⟩
  have hview : e'.calls = e.calls.erase k := by
    unfold TradeEngine.calls
    rw [ho, Map.erase_view]
  rw [hview, Map.mem_erase, ← h.orders]
  exact Map.mem_erase

theorem SameOrders.place (h : SameOrders bound e c) (p : Placement OrderIndex TradeOrder)
    (order : OrderCall) (order_id : ℕ) (w : ν) :
    SameOrders bound ({ e with world := w }.add_order p order order_id).2
      (c.add_order order).2 := by
  have hnew : e.last_order_index_ ∉ e.orders_.keys := by
    rw [← h.keys, h.index]
    exact h.fits.new
  refine ⟨?_, fun x => ?_, h.fits.add_order order, h.ascending.emplace h.fits.small order⟩
  · change e.last_order_index_ + 1 = c.last_order_index_ + 1
    rw [h.index]
  · have hmem : x ∈ (c.add_order order).2.orders_ ↔
        x = (c.last_order_index_, order) ∨ x ∈ c.orders_ := sorted.mem_emplace h.fits.new
    have hperm := (p.emplace_perm (v := ⟨order_id, order⟩) hnew).map
      fun e : OrderIndex × TradeOrder => (e.1, e.2.order)
    rw [hmem, h.orders, ← h.index]
    exact (hperm.mem_iff.trans List.mem_cons).symm

end orders

/-! ## The callbacks -/

/-- A callback that ends in the live engine goes the same way in the backtest. An order in front
of the bound is in the map only if it was there before. -/
theorem SameOrders.callback (net : Net ν) (p : Placement OrderIndex TradeOrder)
    {bound : OrderIndex} {prog : StrategyProg σ} {s : σ} {e e' : TradeEngine ν}
    {c : BacktestContext} (h : SameOrders bound e c)
    (hob : Obeys (TradeBroker net p) (ReadsAccount net c.account_) prog e)
    (hrun : run (TradeBroker net p) prog e = (.ok s, e')) :
    ∃ c', run BacktestBroker prog c = (.ok s, c') ∧ SameOrders bound e' c' ∧
      c'.account_ = c.account_ ∧ c'.commission_ = c.commission_ ∧
      ∀ x ∈ c'.orders_, x.1 < bound → x ∈ c.orders_ := by
  refine hob.run_alike (r := fun e' c' => SameOrders bound e' c' ∧
    c'.account_ = c.account_ ∧ c'.commission_ = c.commission_ ∧
      ∀ x ∈ c'.orders_, x.1 < bound → x ∈ c.orders_) ?_ hrun
    ⟨h, rfl, rfl, fun x hx _ => hx⟩
  rintro op e1 e2 c1 a hop ⟨h1, haccount, hcommission, hold⟩ ho
  cases op with
  | place order =>
    rcases TradeBroker.place_cases net p e1 order with ⟨order_id, w, _, ho'⟩ | ⟨fault, w, _, ho'⟩
    · cases ho.symm.trans ho'
      refine ⟨(c1.add_order order).2, ?_, h1.place p order order_id w, haccount, hcommission,
        fun x hx hlt => ?_⟩
      · rw [h1.index]
        rfl
      · rcases (sorted.mem_emplace h1.fits.new).mp hx with rfl | hx'
        · exact absurd h1.fits.last_le (Nat.not_le_of_lt hlt)
        · exact hold x hx' hlt
    · cases ho.symm.trans ho'
  | cancel index =>
    rcases hf : e1.orders_.find index with _ | order
    · cases ho.symm.trans (TradeBroker.cancel_unknown net p e1 hf)
    · rcases TradeBroker.cancel_cases net p e1 hf with ⟨w, _, ho'⟩ | ⟨fault, w, _, ho'⟩
      · cases ho.symm.trans ho'
        exact ⟨c1.cancel index, rfl, h1.erase index rfl rfl, haccount, hcommission,
          fun x hx hlt => hold x (Map.mem_erase.mp hx).1 hlt⟩
      · cases ho.symm.trans ho'
  | account =>
    have ha : a = c1.account_ := (hop a (by
      rw [show TradeBroker.account net e1 = (.ok a, e2) from ho]
      rfl)).trans haccount.symm
    refine ⟨c1, by rw [ha]; rfl, ?_, haccount, hcommission, hold⟩
    obtain ⟨w, _, hcases⟩ := TradeBroker.account_cases net p e1
    rcases hcases with ⟨b, hb⟩ | hb | ⟨fault, _, hb⟩ <;> cases ho.symm.trans hb
    exact h1.congr rfl rfl rfl rfl

/-! ## The next trade of the backtest -/

namespace BacktestRun

variable {S : IStrategy σ} {last : OrderIndex} {candle : Candle}

theorem met_eq_some {m : Map OrderIndex OrderCall} {k : OrderIndex} {order : OrderCall}
    (hf : m.find k = some order) : met candle m k = order.meets candle := by
  unfold met
  rw [hf]
  rfl

theorem Move.emits {b b' : BacktestRun σ} {log : BrokerLog} (h : Move S b b')
    (hlog : history S b () = log) : Emits (Step S) (history S) b log b' :=
  hlog ▸ (Emits.single h.step : Emits (Step S) (history S) b (history S b ()) b')

/-- From a place in the map the traversal trades the least order that the candle meets, if there
are funds for it. It comes to its end when there is none. -/
theorem trades_the_least_met {b : BacktestRun σ} {iterator : Option OrderIndex}
    (hpc : b.pc = .visit iterator last candle) (hm : b.context.orders_.Ascending)
    (ha : Ahead (met candle b.context.orders_) last iterator b.context.orders_)
    (hfunds : ∀ k order, least_filled (met candle b.context.orders_) last
        b.context.orders_.keys = some k → b.context.orders_.find k = some order →
      b.context.Funds order.side order.quantity (order.fill_price candle)) :
    (least_filled (met candle b.context.orders_) last b.context.orders_.keys = none ∧
      Emits (Step S) (history S) b [] { b with pc := .swept candle }) ∨
    ∃ k order, least_filled (met candle b.context.orders_) last b.context.orders_.keys = some k ∧
      b.context.orders_.find k = some order ∧
      Emits (Step S) (history S) b [.traded k order candle (order.fill_price candle)] { b with
        pc := .filled k last candle
        context := { b.context with
          account_ := b.context.paid order.side order.quantity (order.fill_price candle) }
        fills := b.fills + 1 } := by
  induction hn : (b.context.orders_.rest iterator).length generalizing b iterator with
  | zero =>
    rcases iterator with _ | k
    · exact Or.inl ⟨ahead_end ha (fun _ h => nomatch h),
        (Move.finish hpc).emits (by simp [history, hpc])⟩
    · rw [Map.rest_next (ha.1 k rfl)] at hn
      cases hn
  | succ n ih =>
    rcases iterator with _ | k
    · cases hn
    have hk := ha.1 k rfl
    obtain ⟨order, hfind⟩ := Map.find_of_mem_keys hk
    by_cases hlt : k < last
    · cases hmeets : order.meets candle with
      | false =>
        -- The order is not executed, so every order that the candle meets is behind it.
        have hnot : ¬ order.Executes b.context candle := fun hexec => by
          rw [hexec.1] at hmeets
          cases hmeets
        have hstep : Emits (Step S) (history S) b []
            { b with pc := .visit (b.context.orders_.next k) last candle } :=
          (Move.pass hpc hlt hfind hnot).emits (by simp [history, hpc, hfind, hnot])
        have hpass := ahead_pass ha hm ((met_eq_some hfind).trans hmeets)
        rw [Map.rest_next hk, List.length_cons] at hn
        rcases ih (b := { b with pc := .visit (b.context.orders_.next k) last candle }) rfl hm
            hpass hfunds (Nat.succ.inj hn) with ⟨hnone, hrest⟩ | ⟨j, order', hsome, hf, hrest⟩
        · exact Or.inl ⟨hnone, hstep.append hrest⟩
        · exact Or.inr ⟨j, order', hsome, hf, hstep.append hrest⟩
      | true =>
        have hleast := ahead_trade ha hlt ((met_eq_some hfind).trans hmeets)
        have hexec : order.Executes b.context candle := ⟨hmeets, hfunds k order hleast hfind⟩
        exact Or.inr ⟨k, order, hleast, hfind, (Move.trade hpc hlt hfind hexec).emits
          (by simp [history, hpc, hfind, hlt, hexec])⟩
    · have hle := Nat.not_lt.mp hlt
      refine Or.inl ⟨ahead_end ha fun j hj => Option.some.inj hj ▸ hle,
        (Move.bound hpc hle).emits ?_⟩
      simp [history, hpc, hfind, hlt]

end BacktestRun

/-! ## The backtest beside the live run -/

/-- The order that the backtest has traded and that the strategy is not told about yet. -/
def TradeRun.due (r : TradeRun σ ν) : List OrderIndex :=
  match r.pc with
  | .filled k => [k]
  | _ => []

namespace MarketRun

/-- Where the backtest stands when the live engine stands at a place. -/
def Beside (x : MarketRun σ ν) (candle : Candle) (b : BacktestRun σ) : Prop :=
  match x.live.pc with
  | .visit _ => ∃ iterator, b.pc = .visit iterator x.bound candle ∧
      BacktestRun.Ahead (met candle b.context.orders_) x.bound iterator b.context.orders_
  | .filled k => b.pc = .filled k x.bound candle ∧
      least_filled (met candle b.context.orders_) x.bound b.context.orders_.keys = some k
  | .reported k => b.pc = .reported k x.bound candle ∧
      ∀ j ∈ b.context.orders_.keys, j < x.bound → met candle b.context.orders_ j = true → k ≤ j
  | _ => b.pc = .swept candle

/-- A backtest that has gone through the callbacks of the live run. -/
structure Rehearses (commission : ℚ) (x : MarketRun σ ν) (log : BrokerLog) (b : BacktestRun σ) :
    Prop where
  strategy : b.strategy = x.live.strategy
  account : b.context.account_ = x.account
  commission_eq : b.context.commission_ = commission
  orders : SameOrders x.bound x.live.engine b.context
  told : log.filterMap BrokerEvent.traded_index = x.live.reported ++ x.live.due
  between : x.live.pc = .idle → b.pc = .next ∧ b.data_loader = x.candles
  inside : x.live.pc ≠ .idle → ∃ candle, x.candles = candle :: b.data_loader ∧ x.Beside candle b

@[simp] theorem after_live (commission : ℚ) (x : MarketRun σ ν) (live : TradeRun σ ν) :
    (x.after commission live).live = live := by
  unfold after
  split <;> try rfl
  split <;> rfl

end MarketRun

section orders

variable {bound : OrderIndex} {e e' : TradeEngine ν} {c : BacktestContext}

/-- A new traversal takes in the orders that are there. -/
theorem SameOrders.restart (h : SameOrders bound e c) : SameOrders e.last_order_index_ e c :=
  ⟨h.index, h.orders, ⟨le_of_eq h.index, h.fits.small⟩, h.ascending⟩

theorem SameOrders.met_eq (h : SameOrders bound e c) (candle : Candle) :
    met candle e.calls = met candle c.orders_ :=
  met_congr (fun x => (h.orders x).symm) candle

theorem SameOrders.least_met (h : SameOrders bound e c) (candle : Candle) :
    least_filled (met candle e.calls) bound e.orders_.keys =
      least_filled (met candle c.orders_) bound c.orders_.keys := by
  rw [h.met_eq]
  exact least_filled_congr fun k => (h.keys k).symm

theorem SameOrders.find (h : SameOrders bound e c) {k : OrderIndex} {order : TradeOrder}
    (hf : e.orders_.find k = some order) : c.orders_.find k = some order.order := by
  rw [find_congr h.orders, e.calls_find, hf]
  rfl

theorem funds_congr {side : OrderSide} {quantity price : ℚ} {c c' : BacktestContext}
    (h : c.account_ = c'.account_) : c.Funds side quantity price ↔ c'.Funds side quantity price := by
  cases side <;> simp [BacktestContext.Funds, h]

theorem traded_account_eq (candle : Candle) (order : OrderCall) (c : BacktestContext) :
    traded_account c.commission_ candle order c.account_ =
      c.paid order.side order.quantity (order.fill_price candle) := by
  unfold traded_account
  cases order <;> rfl

end orders

/-- The calls of a callback trade nothing. -/
theorem callback_trades_nothing (ops : List ((op : BrokerCall) × op.Answer)) :
    (ops.filterMap BrokerEvent.of_call).filterMap BrokerEvent.traded_index = [] := by
  rw [List.filterMap_filterMap, List.filterMap_eq_nil_iff]
  rintro ⟨op, a⟩ _
  cases op <;> rfl

namespace MarketRun

section steps

variable {S : IStrategy σ} {net : Net ν} {p : Placement OrderIndex TradeOrder} {commission : ℚ}
  {x : MarketRun σ ν} {log : BrokerLog} {b : BacktestRun σ} {candle : Candle} {k : OrderIndex}

/-- The backtest goes on to the place of the live engine after its step. -/
def Keeps (S : IStrategy σ) (commission : ℚ) (log : BrokerLog) (b : BacktestRun σ)
    (y : MarketRun σ ν) : Prop :=
  ∃ log' b', Emits (BacktestRun.Step S) (BacktestRun.history S) b log' b' ∧
    y.Rehearses commission (log ++ log') b'

theorem Rehearses.keeps_start (h : x.Rehearses commission log b) (hpc : x.live.pc = .idle)
    (hcandle : x.candles.head? = some candle) :
    Keeps S commission log b (x.after commission { x.live with
      pc := .visit x.live.engine.orders_.first }) := by
  obtain ⟨hb, hloader⟩ := h.between hpc
  obtain ⟨rest, hrest⟩ := List.head?_eq_some_iff.mp hcandle
  rw [hrest] at hloader
  refine ⟨[.read candle], _, (BacktestRun.Move.start hb hloader).emits
    (by simp [BacktestRun.history, BacktestRun.reads, hb, hloader]), ?_⟩
  rw [show x.after commission _ = { x with
    live := { x.live with pc := .visit x.live.engine.orders_.first }
    bound := x.live.engine.last_order_index_ } by simp [after, hpc]]
  refine ⟨h.strategy, h.account, h.commission_eq, h.orders.restart.congr rfl rfl rfl rfl, ?_,
    (by simp), fun _ => ⟨candle, hrest, b.context.orders_.first, ?_, ?_⟩⟩
  · rw [List.filterMap_append, h.told, TradeRun.due, hpc]
    simp [TradeRun.due, BrokerEvent.traded_index]
  · change BacktestPc.visit _ _ _ = .visit _ _ _
    rw [h.orders.index]
  · exact BacktestRun.ahead_first _ _ h.orders.ascending

theorem Rehearses.keeps_finish (h : x.Rehearses commission log b) (hpc : x.live.pc = .visit none)
    (hcandle : x.candles.head? = some candle)
    (hleast : least_filled (met candle x.live.engine.calls) x.bound x.live.engine.orders_.keys =
      none) :
    Keeps S commission log b (x.after commission { x.live with pc := .swept }) := by
  obtain ⟨c, hc, hbeside⟩ := h.inside (by simp [hpc])
  obtain rfl : c = candle := by simpa [hc] using hcandle
  rw [Beside, hpc] at hbeside
  obtain ⟨iterator, hb, hahead⟩ := hbeside
  rw [h.orders.least_met] at hleast
  rcases BacktestRun.trades_the_least_met (S := S) hb h.orders.ascending hahead (fun k _ hk _ => by
    rw [hleast] at hk
    cases hk) with ⟨_, hemits⟩ | ⟨k, _, hk, _⟩
  · refine ⟨[], _, hemits, ?_⟩
    rw [List.append_nil, show x.after commission _ = { x with
      live := { x.live with pc := .swept } } by simp [after, hpc]]
    refine ⟨h.strategy, h.account, h.commission_eq, h.orders, ?_, (by simp), fun _ => ⟨c, hc, rfl⟩⟩
    rw [h.told, TradeRun.due, hpc]
    rfl
  · rw [hleast] at hk
    cases hk

theorem Rehearses.keeps_pass (h : x.Rehearses commission log b)
    (hpc : x.live.pc = .visit (some k)) (hcandle : x.candles.head? = some candle)
    {order : TradeOrder} (hfind : x.live.engine.orders_.find k = some order)
    (hmeets : order.order.meets candle = false) {engine : TradeEngine ν}
    (horders : engine.orders_ = x.live.engine.orders_)
    (hindex : engine.last_order_index_ = x.live.engine.last_order_index_) :
    Keeps S commission log b (x.after commission { x.live with
      pc := .visit (engine.orders_.next k)
      engine := engine }) := by
  obtain ⟨c, hc, hbeside⟩ := h.inside (by simp [hpc])
  obtain rfl : c = candle := by simpa [hc] using hcandle
  rw [Beside, hpc] at hbeside
  refine ⟨[], b, .nil b, ?_⟩
  rw [List.append_nil, show x.after commission _ = { x with
    live := { x.live with
      pc := .visit (engine.orders_.next k)
      engine := engine } } by simp [after, hpc, hcandle, x.live.engine.calls_find, hfind, hmeets]]
  refine ⟨h.strategy, h.account, h.commission_eq, h.orders.congr horders hindex rfl rfl, ?_,
    (by simp), fun _ => ⟨c, hc, hbeside⟩⟩
  rw [h.told, TradeRun.due, hpc]
  rfl

theorem Rehearses.keeps_trade (h : x.Rehearses commission log b)
    (hpc : x.live.pc = .visit (some k)) (hcandle : x.candles.head? = some candle)
    {order : TradeOrder} (hfind : x.live.engine.orders_.find k = some order)
    (hmeets : order.order.meets candle = true)
    (hfunds : BacktestContext.Funds order.order.side order.order.quantity
      (order.order.fill_price candle) { account_ := x.account, commission_ := commission })
    (hleast : least_filled (met candle x.live.engine.calls) x.bound x.live.engine.orders_.keys =
      some k) {engine : TradeEngine ν}
    (horders : engine.orders_ = x.live.engine.orders_)
    (hindex : engine.last_order_index_ = x.live.engine.last_order_index_) :
    Keeps S commission log b (x.after commission { x.live with
      pc := .filled k
      engine := engine }) := by
  obtain ⟨c, hc, hbeside⟩ := h.inside (by simp [hpc])
  obtain rfl : c = candle := by simpa [hc] using hcandle
  rw [Beside, hpc] at hbeside
  obtain ⟨iterator, hb, hahead⟩ := hbeside
  rw [h.orders.least_met] at hleast
  have hbook := h.orders.find hfind
  rcases BacktestRun.trades_the_least_met (S := S) hb h.orders.ascending hahead (fun j o hj ho => by
    obtain rfl : j = k := Option.some.inj (hj.symm.trans hleast)
    obtain rfl : o = order.order := Option.some.inj (ho.symm.trans hbook)
    exact (funds_congr h.account).mpr hfunds) with ⟨hnone, _⟩ | ⟨j, o, hj, ho, hemits⟩
  · rw [hleast] at hnone
    cases hnone
  · obtain rfl : j = k := Option.some.inj (hj.symm.trans hleast)
    obtain rfl : o = order.order := Option.some.inj (ho.symm.trans hbook)
    refine ⟨_, _, hemits, ?_⟩
    rw [show x.after commission _ = { x with
      live := { x.live with pc := .filled j, engine := engine }
      account := traded_account commission c order.order x.account } by
        simp [after, hpc, hcandle, x.live.engine.calls_find, hfind, hmeets]]
    refine ⟨h.strategy, ?_, h.commission_eq, h.orders.congr horders hindex rfl rfl, ?_, (by simp),
      fun _ => ⟨c, hc, rfl, hleast⟩⟩
    · change b.context.paid _ _ _ = _
      rw [← traded_account_eq, h.account, h.commission_eq]
    · rw [List.filterMap_append, h.told, TradeRun.due, hpc]
      simp [TradeRun.due, BrokerEvent.traded_index]

/-- A callback ends in the live engine with a crash, or it goes the same way in the backtest. -/
theorem Rehearses.callback (h : x.Rehearses commission log b) {prog : StrategyProg σ}
    (hob : Obeys (TradeBroker net p) (ReadsAccount net x.account) prog x.live.engine) :
    (∃ fault e, run (TradeBroker net p) prog x.live.engine = (.error fault, e)) ∨
    ∃ s e c, run (TradeBroker net p) prog x.live.engine = (.ok s, e) ∧
      run BacktestBroker prog b.context = (.ok s, c) ∧ SameOrders x.bound e c ∧
      c.account_ = x.account ∧ c.commission_ = commission ∧
      ∀ o ∈ c.orders_, o.1 < x.bound → o ∈ b.context.orders_ := by
  rcases hrun : run (TradeBroker net p) prog x.live.engine with ⟨fault | s, e⟩
  · exact Or.inl ⟨fault, e, rfl⟩
  · rw [← h.account] at hob
    obtain ⟨c, h1, h2, h3, h4, h5⟩ := h.orders.callback net p hob hrun
    exact Or.inr ⟨s, e, c, rfl, h1, h2, h3.trans h.account, h4.trans h.commission_eq, h5⟩

theorem Rehearses.keeps_report (h : x.Rehearses commission log b) (hpc : x.live.pc = .filled k)
    (hob : Obeys (TradeBroker net p) (ReadsAccount net x.account)
      (S.on_order_filled k x.live.strategy) x.live.engine) :
    (∃ fault, (TradeRun.callback net p (S.on_order_filled k x.live.strategy) (.reported k)
      { x.live with reported := x.live.reported ++ [k] }).pc = .crashed fault) ∨
    Keeps S commission log b (x.after commission
      (TradeRun.callback net p (S.on_order_filled k x.live.strategy) (.reported k)
        { x.live with reported := x.live.reported ++ [k] })) := by
  obtain ⟨c, hc, hbeside⟩ := h.inside (by simp [hpc])
  rw [Beside, hpc] at hbeside
  obtain ⟨hb, hleast⟩ := hbeside
  obtain ⟨hk, hmin⟩ := least_filled_eq_some.mp hleast
  rcases h.callback hob with ⟨fault, e, hrun⟩ | ⟨s, e, c', hrun, hrun', hsame, haccount, hcomm, hold⟩
  · exact Or.inl ⟨fault, by simp [TradeRun.callback, hrun]⟩
  · rw [← h.strategy] at hrun'
    have hstep := (BacktestRun.Move.report (S := S) hb).emits rfl
    rw [BacktestRun.callback_ok hrun'] at hstep
    refine Or.inr ⟨_, _, hstep, ?_⟩
    rw [show x.after commission _ = { x with
      live := { x.live with
        pc := .reported k
        engine := e
        strategy := s
        reported := x.live.reported ++ [k] } } by simp [after, hpc, TradeRun.callback, hrun]]
    refine ⟨rfl, haccount, hcomm, hsame, ?_, (by simp),
      fun _ => ⟨c, hc, rfl, fun j hj hlt ho => ?_⟩⟩
    · rw [List.filterMap_append, h.told, show BacktestRun.history S b () = _ by
        simp only [BacktestRun.history, hb]; rfl, callback_trades_nothing]
      simp [TradeRun.due, hpc]
    · -- An order in front of the bound was there before the callback.
      obtain ⟨order, horder⟩ := Map.mem_keys.mp hj
      have hbefore := hold _ horder hlt
      refine hmin j (Map.mem_keys.mpr ⟨order, hbefore⟩) hlt ?_
      rw [BacktestRun.met_eq_some (Map.find_of_mem hbefore)]
      exact (BacktestRun.met_eq_some (Map.find_of_mem horder)).symm.trans ho

theorem Rehearses.keeps_forget (h : x.Rehearses commission log b) (hpc : x.live.pc = .reported k)
    (hk : k ∈ x.live.engine.orders_.keys) :
    Keeps S commission log b (x.after commission { x.live with
      pc := .visit (x.live.engine.orders_.next k)
      engine := { x.live.engine with orders_ := x.live.engine.orders_.erase k } }) := by
  obtain ⟨c, hc, hbeside⟩ := h.inside (by simp [hpc])
  rw [Beside, hpc] at hbeside
  obtain ⟨hb, hmin⟩ := hbeside
  have hkb := (h.orders.keys k).mpr hk
  refine ⟨[], _, (BacktestRun.Move.forget hb hkb).emits (by simp [BacktestRun.history, hb]), ?_⟩
  rw [List.append_nil, show x.after commission _ = { x with
    live := { x.live with
      pc := .visit (x.live.engine.orders_.next k)
      engine := { x.live.engine with orders_ := x.live.engine.orders_.erase k } } } by
        simp [after, hpc]]
  refine ⟨h.strategy, h.account, h.commission_eq, h.orders.erase k rfl rfl, ?_, (by simp),
    fun _ => ⟨c, hc, _, rfl, ?_⟩⟩
  · rw [h.told, TradeRun.due, hpc]
    rfl
  · refine BacktestRun.ahead_next h.orders.ascending hkb
      (fun j hj hne => Map.mem_keys_erase.mpr ⟨hj, hne⟩) fun j hj hlt ho => ?_
    obtain ⟨hjm, hne⟩ := Map.mem_keys_erase.mp hj
    refine ⟨hjm, Nat.lt_of_le_of_ne (hmin j hjm hlt ?_) (Ne.symm hne)⟩
    obtain ⟨order, horder⟩ := Map.mem_keys.mp hjm
    have hafter : (j, order) ∈ b.context.orders_.erase k := Map.mem_erase.mpr ⟨horder, hne⟩
    rw [BacktestRun.met_eq_some (Map.find_of_mem horder)]
    exact (BacktestRun.met_eq_some (Map.find_of_mem hafter)).symm.trans ho

theorem Rehearses.keeps_update (h : x.Rehearses commission log b)
    (hpc : x.live.pc = .fetched candle) (hcandle : x.candles.head? = some candle)
    (hob : Obeys (TradeBroker net p) (ReadsAccount net x.account)
      (S.update candle x.live.strategy) x.live.engine) :
    (∃ fault, (TradeRun.callback net p (S.update candle x.live.strategy) .idle x.live).pc =
      .crashed fault) ∨
    Keeps S commission log b (x.after commission
      (TradeRun.callback net p (S.update candle x.live.strategy) .idle x.live)) := by
  obtain ⟨c, hc, hbeside⟩ := h.inside (by simp [hpc])
  obtain rfl : c = candle := by simpa [hc] using hcandle
  rw [Beside, hpc] at hbeside
  rcases h.callback hob with ⟨fault, e, hrun⟩ | ⟨s, e, c', hrun, hrun', hsame, haccount, hcomm, _⟩
  · exact Or.inl ⟨fault, by simp [TradeRun.callback, hrun]⟩
  · rw [← h.strategy] at hrun'
    have hstep := (BacktestRun.Move.update (S := S) hbeside).emits rfl
    rw [BacktestRun.callback_ok hrun'] at hstep
    refine Or.inr ⟨_, _, hstep, ?_⟩
    rw [show x.after commission _ = { x with
      live := { x.live with pc := .idle, engine := e, strategy := s }
      candles := x.candles.tail } by simp [after, hpc, TradeRun.callback, hrun]]
    refine ⟨rfl, haccount, hcomm, hsame, ?_, fun _ => ⟨rfl, ?_⟩, fun hnot => absurd rfl hnot⟩
    · rw [List.filterMap_append, h.told, show BacktestRun.history S b () = _ by
        simp only [BacktestRun.history, hbeside]; rfl, callback_trades_nothing]
      simp [TradeRun.due, hpc]
    · change b.data_loader = x.candles.tail
      rw [hc]
      rfl

/-- A step of the live run ends in a crash, or the backtest goes on to its place. -/
theorem rehearses_step {now : ℤ} {y : MarketRun σ ν}
    (hstep : Where (MarketRun.Step S net p commission) (Goes S net p commission) x now y)
    (h : x.Rehearses commission log b) :
    (∃ fault, y.live.pc = .crashed fault) ∨ Keeps S commission log b y := by
  obtain ⟨hstep, candle, hcandle, hgoes⟩ := hstep
  obtain ⟨live, hlive, rfl⟩ := Option.map_eq_some_iff.mp hstep
  unfold GoesWith at hgoes
  rw [after_live]
  cases TradeRun.step_moves hlive with
  | start hpc => exact Or.inr (h.keeps_start hpc hcandle)
  | finish hpc =>
    rw [hpc] at hgoes
    exact Or.inr (h.keeps_finish hpc hcandle hgoes.1.symm)
  | @poll_filled k order _ hpc hfind hpoll =>
    rw [hpc] at hgoes
    obtain ⟨hfirst, hanswer⟩ := hgoes
    obtain ⟨houtcome, hfunds⟩ := hanswer k rfl order hfind
    have hmeets := (houtcome true (by rw [hpoll]; rfl)).symm
    have hk : k ∈ x.live.engine.orders_.keys := Map.mem_keys_of_find hfind
    have hcall := x.live.engine.calls_find k
    rw [hfind] at hcall
    rw [Map.rest_next hk,
      List.find?_cons_of_pos ((BacktestRun.met_eq_some hcall).trans hmeets)] at hfirst
    obtain ⟨horders, hindex⟩ := TradeRun.poll_frame hpoll
    exact Or.inr (h.keeps_trade hpc hcandle hfind hmeets (hfunds hmeets) hfirst.symm horders hindex)
  | poll_open hpc hfind hpoll =>
    rw [hpc] at hgoes
    have hmeets := ((hgoes.2 _ rfl _ hfind).1 false (by rw [hpoll]; rfl)).symm
    obtain ⟨horders, hindex⟩ := TradeRun.poll_frame hpoll
    exact Or.inr (h.keeps_pass hpc hcandle hfind hmeets horders hindex)
  | poll_failed => exact Or.inl ⟨_, rfl⟩
  | lost => exact Or.inl ⟨_, rfl⟩
  | report hpc =>
    rw [hpc] at hgoes
    exact h.keeps_report hpc hgoes
  | forget hpc hk => exact Or.inr (h.keeps_forget hpc hk)
  | fetch hpc _ huse =>
    obtain ⟨c, hc, hbeside⟩ := h.inside (by simp [hpc])
    rw [Beside, hpc] at hbeside
    refine Or.inr ⟨[], b, .nil b, ?_⟩
    rw [List.append_nil, show ∀ live, x.after commission live = { x with live := live } by
      intro live
      simp [after, hpc]]
    obtain rfl := (Prod.mk.inj huse).2
    refine ⟨h.strategy, h.account, h.commission_eq, h.orders.congr rfl rfl rfl rfl, ?_, (by simp),
      fun _ => ⟨c, hc, hbeside⟩⟩
    rw [h.told, TradeRun.due, hpc]
    rfl
  | fetch_empty => exact Or.inl ⟨_, rfl⟩
  | fetch_failed => exact Or.inl ⟨_, rfl⟩
  | update hpc =>
    rw [hpc] at hgoes
    obtain ⟨rfl, hob⟩ := hgoes
    exact h.keeps_update hpc hcandle hob

end steps

theorem rehearses_start (symbol : String) (broker : BinanceBroker) (world : ν) (strategy : σ)
    (account : Account) (commission : ℚ) (candles : List Candle) :
    (start symbol broker world strategy account candles).Rehearses commission []
      (BacktestRun.start account commission candles strategy) :=
  ⟨rfl, rfl, rfl, ⟨rfl, fun _ => Iff.rfl, ⟨le_rfl, fun _ hk => absurd hk List.not_mem_nil⟩,
    List.Pairwise.nil⟩, rfl, fun _ => ⟨rfl, rfl⟩, fun hnot => absurd rfl hnot⟩

/-- Buys twice below the price of 100, and sells what the account holds when a buy is filled. -/
def dip_strategy : IStrategy Unit where
  update := fun candle s => do
    if candle.close_price = 100 then
      let _ ← IBroker.limit_buy_order 1 90
      let _ ← IBroker.limit_buy_order 1 80
    return s
  on_order_filled := fun _ s => do
    let account ← IBroker.account
    let _ ← IBroker.limit_sell_order account.position 110
    return s

/-- A kline at one price, as the exchange sends it. -/
def flat_kline (price : String) : Json :=
  .arr [.num 0, .str price, .str price, .str price, .str price, .str "1", .num 1, .str price,
    .num 1, .str "0", .str "0"]

/-- The price falls from 100 to 90, and the first order fills on the way. The answer to the request
with the number 5 is the account behind the fill. -/
def falling_market : Market where
  next_id := id
  trades := fun clock order_id => if clock = 4 ∧ order_id = 1 then .fully else .nothing
  info := fun clock =>
    if clock = 0 then .arr [flat_kline "100"]
    else if clock = 5 then .obj [("balances", .arr [
      .obj [("asset", .str "USDT"), ("free", .str "910"), ("locked", .str "0")],
      .obj [("asset", .str "BTC"), ("free", .str "1"), ("locked", .str "0")]])]
    else .arr [flat_kline "90"]

end MarketRun

end wedge
