-- The live engine (`trade/trade_engine.cc`, `trade_broker.cc`): a hash map from
-- order indices to exchange ids, a traversal that polls every order, and the
-- strategy called in between.
import Wedge.Lib.Containers
import Wedge.Lib.Runs
import Wedge.Binance.Broker

namespace wedge

open programs containers

/-- A value of `orders_`. The C++ map holds only the id. `order` is the call that placed it. -/
structure TradeOrder where
  order_id : ℕ
  order : OrderCall
  deriving DecidableEq, Repr

/-- `world` is what the engine talks to. The last three fields are not in the C++ class:
`issued` holds the exchange id of each placement, by index, `polled` the ids that a poll has
reported as filled, and `canceled` the id that `orders_` held for each order that was canceled. -/
structure TradeEngine (ν : Type) where
  symbol_ : String
  broker_ : BinanceBroker
  orders_ : Map OrderIndex TradeOrder := ∅
  last_order_index_ : OrderIndex := 0
  world : ν
  issued : List ℕ := []
  polled : List ℕ := []
  canceled : List ℕ := []
  deriving DecidableEq, Repr

variable {ν : Type}

namespace TradeEngine

def add_order (p : Placement OrderIndex TradeOrder) (order : OrderCall) (order_id : ℕ)
    (e : TradeEngine ν) : OrderIndex × TradeEngine ν :=
  let result := e.last_order_index_
  (result, { e with
    last_order_index_ := result + 1
    orders_ := p.emplace result { order_id := order_id, order := order } e.orders_
    issued := e.issued ++ [order_id] })

/-- Runs a program that uses the network. -/
def use (net : Net ν) {α : Type} (p : NetProg α) (e : TradeEngine ν) :
    Except Fault α × TradeEngine ν :=
  ((run (serve net) p e.world).1, { e with world := (run (serve net) p e.world).2 })

/-- One look at an entry of `orders_`: whether the exchange says that it is filled. -/
def poll (net : Net ν) (order : TradeOrder) (e : TradeEngine ν) :
    Except Fault Bool × TradeEngine ν :=
  match e.use net (e.broker_.get_order e.symbol_ order.order_id) with
  | (.ok true, e) => (.ok true, { e with polled := e.polled ++ [order.order_id] })
  | (.ok false, e) => (.ok false, e)
  | (.error fault, e) => (.error fault, e)

end TradeEngine

namespace TradeBroker

/-- The symbol without its last four letters: `XXXUSDT` gives `XXX`. The length wraps around
below four, and the whole symbol is left. -/
def base_symbol (symbol : String) : String :=
  if symbol.length < 4 then symbol
  else String.ofList (symbol.toList.take (symbol.length - 4))

/-- The two amounts. A balance that is not there is undefined behaviour. -/
def to_account (symbol : String) (account : BinanceAccount) : Except Fault Account :=
  match account.free "USDT", account.free (base_symbol symbol) with
  | some balance, some position => .ok { balance := balance, position := position }
  | _, _ => .error .undefined

/-- The exchange id is cut to 16 bits before the request. -/
def cancel (net : Net ν) (index : OrderIndex) (e : TradeEngine ν) :
    Except Fault Unit × TradeEngine ν :=
  match e.orders_.find index with
  | none => (.error .undefined, e)
  | some order =>
    let order_id := order.order_id % 2 ^ 16
    match e.use net (e.broker_.cancel_order e.symbol_ order_id) with
    | (.ok _, e) => (.ok (), { e with
        orders_ := e.orders_.erase index
        canceled := e.canceled ++ [order.order_id] })
    | (.error fault, e) => (.error fault, e)

def place (net : Net ν) (p : Placement OrderIndex TradeOrder) (order : OrderCall)
    (e : TradeEngine ν) : Except Fault OrderIndex × TradeEngine ν :=
  match e.use net (e.broker_.create e.symbol_ order) with
  | (.ok order_id, e) => (.ok (e.add_order p order order_id).1, (e.add_order p order order_id).2)
  | (.error fault, e) => (.error fault, e)

def account (net : Net ν) (e : TradeEngine ν) : Except Fault Account × TradeEngine ν :=
  match e.use net e.broker_.get_account with
  | (.ok account, e) => (to_account e.symbol_ account, e)
  | (.error fault, e) => (.error fault, e)

end TradeBroker

def TradeBroker (net : Net ν) (p : Placement OrderIndex TradeOrder) :
    Handler BrokerCall BrokerCall.Answer Fault (TradeEngine ν)
  | .place order, e => TradeBroker.place net p order e
  | .cancel index, e => TradeBroker.cancel net index e
  | .account, e => TradeBroker.account net e

section calls

variable (net : Net ν) (p : Placement OrderIndex TradeOrder) (e : TradeEngine ν)

theorem TradeBroker.place_cases (order : OrderCall) :
    (∃ order_id w, run (serve net) (e.broker_.create e.symbol_ order) e.world = (.ok order_id, w) ∧
      TradeBroker net p (.place order) e =
        (.ok e.last_order_index_, ({ e with world := w }.add_order p order order_id).2)) ∨
    ∃ fault w, run (serve net) (e.broker_.create e.symbol_ order) e.world = (.error fault, w) ∧
      TradeBroker net p (.place order) e = (.error fault, { e with world := w }) := by
  simp only [TradeBroker, TradeBroker.place, TradeEngine.use]
  rcases run (serve net) (e.broker_.create e.symbol_ order) e.world with ⟨fault | order_id, w⟩
  · exact Or.inr ⟨fault, w, rfl, rfl⟩
  · exact Or.inl ⟨order_id, w, rfl, rfl⟩

/-- A cancel of a tracked order sends its id, cut to 16 bits, and forgets it. -/
theorem TradeBroker.cancel_cases {index : OrderIndex} {order : TradeOrder}
    (h : e.orders_.find index = some order) :
    (∃ w, run (serve net) (e.broker_.cancel_order e.symbol_ (order.order_id % 2 ^ 16)) e.world =
        (.ok (), w) ∧
      TradeBroker net p (.cancel index) e = (.ok (), { e with
        world := w
        canceled := e.canceled ++ [order.order_id]
        orders_ := e.orders_.erase index })) ∨
    ∃ fault w, run (serve net) (e.broker_.cancel_order e.symbol_ (order.order_id % 2 ^ 16)) e.world =
        (.error fault, w) ∧
      TradeBroker net p (.cancel index) e = (.error fault, { e with world := w }) := by
  simp only [TradeBroker, TradeBroker.cancel, h, TradeEngine.use]
  rcases run (serve net) (e.broker_.cancel_order e.symbol_ (order.order_id % 2 ^ 16)) e.world with
    ⟨fault | _, w⟩
  · exact Or.inr ⟨fault, w, rfl, rfl⟩
  · exact Or.inl ⟨w, rfl, rfl⟩

/-- A cancel of any other order is undefined. -/
theorem TradeBroker.cancel_unknown {index : OrderIndex} (h : e.orders_.find index = none) :
    TradeBroker net p (.cancel index) e = (.error .undefined, e) := by
  simp only [TradeBroker, TradeBroker.cancel, h]
  rfl

theorem TradeBroker.account_cases :
    ∃ w, (run (serve net) e.broker_.get_account e.world).2 = w ∧
      ((∃ a, TradeBroker net p .account e = (.ok a, { e with world := w })) ∨
        TradeBroker net p .account e = (.error .undefined, { e with world := w }) ∨
        ∃ fault, (run (serve net) e.broker_.get_account e.world).1 = .error fault ∧
          TradeBroker net p .account e = (.error fault, { e with world := w })) := by
  simp only [TradeBroker, TradeBroker.account, TradeEngine.use]
  rcases run (serve net) e.broker_.get_account e.world with ⟨fault | account, w⟩
  · exact ⟨w, rfl, Or.inr (Or.inr ⟨fault, rfl, rfl⟩)⟩
  · refine ⟨w, rfl, ?_⟩
    dsimp only
    unfold TradeBroker.to_account
    split
    · exact Or.inl ⟨_, rfl⟩
    · exact Or.inr (Or.inl rfl)

theorem TradeEngine.poll_cases (order : TradeOrder) :
    (∃ filled w, run (serve net) (e.broker_.get_order e.symbol_ order.order_id) e.world =
        (.ok filled, w) ∧
      e.poll net order = (.ok filled, { e with
        world := w
        polled := if filled then e.polled ++ [order.order_id] else e.polled })) ∨
    ∃ fault w, run (serve net) (e.broker_.get_order e.symbol_ order.order_id) e.world =
        (.error fault, w) ∧
      e.poll net order = (.error fault, { e with world := w }) := by
  unfold TradeEngine.poll TradeEngine.use
  rcases run (serve net) (e.broker_.get_order e.symbol_ order.order_id) e.world with
    ⟨fault | _ | _, w⟩
  · exact Or.inr ⟨fault, w, rfl, rfl⟩
  · exact Or.inl ⟨false, w, rfl, rfl⟩
  · exact Or.inl ⟨true, w, rfl, rfl⟩

end calls

/-! ## The runs -/

/-- Where `TradeEngine::run` stands: before the traversal, in it, before and after
`on_order_filled`, before the request for candles, and before `update`. -/
inductive TradePc
  | idle
  | visit (iterator : Option OrderIndex)
  | filled (index : OrderIndex)
  | reported (index : OrderIndex)
  | swept
  | fetched (candle : Candle)
  | crashed (fault : Fault)
  deriving DecidableEq, Repr

/-- `reported` holds the index of each call of `on_order_filled`, first call first. -/
structure TradeRun (σ ν : Type) where
  pc : TradePc := .idle
  engine : TradeEngine ν
  strategy : σ
  reported : List OrderIndex := []

namespace TradeRun

variable {σ : Type}

/-- Runs a callback of the strategy. -/
def callback (net : Net ν) (p : Placement OrderIndex TradeOrder) (prog : StrategyProg σ)
    (pc : TradePc) (r : TradeRun σ ν) : TradeRun σ ν :=
  match run (TradeBroker net p) prog r.engine with
  | (.ok strategy, engine) => { r with pc := pc, engine := engine, strategy := strategy }
  | (.error fault, engine) => { r with pc := .crashed fault, engine := engine }

/-- One step. `now` is the time on the system clock in milliseconds. There is no step after a
crash. -/
def step (S : IStrategy σ) (net : Net ν) (p : Placement OrderIndex TradeOrder) (now : ℤ)
    (r : TradeRun σ ν) : Option (TradeRun σ ν) :=
  match r.pc with
  | .idle => some { r with pc := .visit (r.engine.orders_.first) }
  | .visit none => some { r with pc := .swept }
  | .visit (some index) =>
    match r.engine.orders_.find index with
    | none => some { r with pc := .crashed .undefined }
    | some order =>
      match r.engine.poll net order with
      | (.ok true, engine) => some { r with pc := .filled index, engine := engine }
      | (.ok false, engine) =>
        some { r with pc := .visit (engine.orders_.next index), engine := engine }
      | (.error fault, engine) => some { r with pc := .crashed fault, engine := engine }
  | .filled index =>
    some ({ r with reported := r.reported ++ [index] }.callback net p
      (S.on_order_filled index r.strategy) (.reported index))
  | .reported index =>
    if index ∈ r.engine.orders_.keys then some { r with
      pc := .visit (r.engine.orders_.next index)
      engine := { r.engine with orders_ := r.engine.orders_.erase index } }
    else some { r with pc := .crashed .undefined }
  | .swept =>
    match r.engine.use net (r.engine.broker_.get_klines "BTCUSDT" "30m" (now - 1800000) now) with
    | (.ok candles, engine) =>
      match candles.getLast? with
      | some candle => some { r with pc := .fetched candle, engine := engine }
      | none => some { r with pc := .crashed .undefined, engine := engine }
    | (.error fault, engine) => some { r with pc := .crashed fault, engine := engine }
  | .fetched candle => some (r.callback net p (S.update candle r.strategy) .idle)
  | .crashed _ => none

/-- A new engine with its strategy. -/
def start (symbol : String) (broker : BinanceBroker) (world : ν) (strategy : σ) : TradeRun σ ν :=
  { engine := { symbol_ := symbol, broker_ := broker, world := world }, strategy := strategy }

def Step (S : IStrategy σ) (net : Net ν) (p : Placement OrderIndex TradeOrder)
    (r : TradeRun σ ν) (now : ℤ) (r' : TradeRun σ ν) : Prop := r.step S net p now = some r'

/-- All that a step can do. -/
inductive Move (S : IStrategy σ) (net : Net ν) (p : Placement OrderIndex TradeOrder)
    (r : TradeRun σ ν) : ℤ → TradeRun σ ν → Prop
  | start {now : ℤ} : r.pc = .idle →
      Move S net p r now { r with pc := .visit (r.engine.orders_.first) }
  | finish {now : ℤ} : r.pc = .visit none → Move S net p r now { r with pc := .swept }
  | poll_filled {now : ℤ} {index : OrderIndex} {order : TradeOrder} {engine : TradeEngine ν} :
      r.pc = .visit (some index) → r.engine.orders_.find index = some order →
      r.engine.poll net order = (.ok true, engine) →
      Move S net p r now { r with pc := .filled index, engine := engine }
  | poll_open {now : ℤ} {index : OrderIndex} {order : TradeOrder} {engine : TradeEngine ν} :
      r.pc = .visit (some index) → r.engine.orders_.find index = some order →
      r.engine.poll net order = (.ok false, engine) →
      Move S net p r now { r with pc := .visit (engine.orders_.next index), engine := engine }
  | poll_failed {now : ℤ} {index : OrderIndex} {order : TradeOrder} {engine : TradeEngine ν}
      {fault : Fault} :
      r.pc = .visit (some index) → r.engine.orders_.find index = some order →
      r.engine.poll net order = (.error fault, engine) →
      Move S net p r now { r with pc := .crashed fault, engine := engine }
  | lost {now : ℤ} {index : OrderIndex} : r.pc = .visit (some index) ∨ r.pc = .reported index →
      index ∉ r.engine.orders_.keys → Move S net p r now { r with pc := .crashed .undefined }
  | report {now : ℤ} {index : OrderIndex} : r.pc = .filled index →
      Move S net p r now ({ r with reported := r.reported ++ [index] }.callback net p
        (S.on_order_filled index r.strategy) (.reported index))
  | forget {now : ℤ} {index : OrderIndex} : r.pc = .reported index →
      index ∈ r.engine.orders_.keys →
      Move S net p r now { r with
        pc := .visit (r.engine.orders_.next index)
        engine := { r.engine with orders_ := r.engine.orders_.erase index } }
  | fetch {now : ℤ} {candles : List Candle} {candle : Candle} {engine : TradeEngine ν} :
      r.pc = .swept → candles.getLast? = some candle →
      r.engine.use net (r.engine.broker_.get_klines "BTCUSDT" "30m" (now - 1800000) now) =
        (.ok candles, engine) →
      Move S net p r now { r with pc := .fetched candle, engine := engine }
  | fetch_empty {now : ℤ} {engine : TradeEngine ν} : r.pc = .swept →
      r.engine.use net (r.engine.broker_.get_klines "BTCUSDT" "30m" (now - 1800000) now) =
        (.ok [], engine) →
      Move S net p r now { r with pc := .crashed .undefined, engine := engine }
  | fetch_failed {now : ℤ} {fault : Fault} {engine : TradeEngine ν} : r.pc = .swept →
      r.engine.use net (r.engine.broker_.get_klines "BTCUSDT" "30m" (now - 1800000) now) =
        (.error fault, engine) →
      Move S net p r now { r with pc := .crashed fault, engine := engine }
  | update {now : ℤ} {candle : Candle} : r.pc = .fetched candle →
      Move S net p r now (r.callback net p (S.update candle r.strategy) .idle)

theorem step_moves {S : IStrategy σ} {net : Net ν} {p : Placement OrderIndex TradeOrder}
    {r r' : TradeRun σ ν} {now : ℤ} (h : Step S net p r now r') : Move S net p r now r' := by
  unfold Step step at h
  rcases hpc : r.pc with _ | ⟨_ | index⟩ | index | index | _ | candle | fault <;>
    rw [hpc] at h <;> dsimp only at h
  · cases h
    exact .start hpc
  · cases h
    exact .finish hpc
  · rcases hf : r.engine.orders_.find index with _ | order <;> rw [hf] at h <;> dsimp only at h
    · cases h
      exact .lost (Or.inl hpc) (Map.find_eq_none.mp hf)
    · rcases hp : r.engine.poll net order with ⟨fault | _ | _, engine⟩ <;> rw [hp] at h <;> cases h
      · exact .poll_failed hpc hf hp
      · exact .poll_open hpc hf hp
      · exact .poll_filled hpc hf hp
  · cases h
    exact .report hpc
  · split at h <;> cases h
    · exact .forget hpc ‹_›
    · exact .lost (Or.inr hpc) ‹_›
  · rcases hu : r.engine.use net
      (r.engine.broker_.get_klines "BTCUSDT" "30m" (now - 1800000) now) with ⟨fault | candles, e⟩ <;>
      rw [hu] at h <;> dsimp only at h
    · cases h
      exact .fetch_failed hpc hu
    · rcases hc : candles.getLast? with _ | candle <;> rw [hc] at h <;> cases h
      · rw [List.getLast?_eq_none_iff] at hc
        subst hc
        exact .fetch_empty hpc hu
      · exact .fetch hpc hc hu
  · cases h
    exact .update hpc
  · cases h

/-- The calls of the callback that comes next meet the condition. -/
def Callbacks (S : IStrategy σ) (net : Net ν) (p : Placement OrderIndex TradeOrder)
    (cond : BrokerCall → TradeEngine ν → Prop) (r : TradeRun σ ν) (_ : ℤ) : Prop :=
  match r.pc with
  | .filled index => Obeys (TradeBroker net p) cond (S.on_order_filled index r.strategy) r.engine
  | .fetched candle => Obeys (TradeBroker net p) cond (S.update candle r.strategy) r.engine
  | _ => True

instance (S : IStrategy σ) (net : Net ν) (p : Placement OrderIndex TradeOrder)
    (cond : BrokerCall → TradeEngine ν → Prop) [∀ op e, Decidable (cond op e)]
    (r : TradeRun σ ν) (now : ℤ) : Decidable (r.Callbacks S net p cond now) := by
  unfold Callbacks
  cases r.pc <;> infer_instance

theorem callback_engine (net : Net ν) (p : Placement OrderIndex TradeOrder)
    (prog : StrategyProg σ) (pc : TradePc) (r : TradeRun σ ν) :
    (r.callback net p prog pc).engine = (run (TradeBroker net p) prog r.engine).2 ∧
      ((r.callback net p prog pc).pc = pc ∨ ∃ f, (r.callback net p prog pc).pc = .crashed f) := by
  unfold callback
  rcases run (TradeBroker net p) prog r.engine with ⟨f | g, e⟩
  · exact ⟨rfl, Or.inr ⟨f, rfl⟩⟩
  · exact ⟨rfl, Or.inl rfl⟩

end TradeRun

end wedge
