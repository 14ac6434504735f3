-- The ladder in both engines: at every step of a run the open orders are on it, and
-- the indicator alone decides whether there are any.
import Wedge.Backtest.Solvency
import Wedge.Strategy.Ladder
import Wedge.Trade.Bookkeeping

namespace wedge

open programs containers

/-- What the callbacks of the grid strategy keep, with the price of the last filled order, when its
two orders have different indices. -/
structure GridStrategy.Kept (to_float : ℚ → ℚ) (P : Option ℚ → GridStrategy → Prop) : Prop where
  update : ∀ last g candle g', P last g → g' ∈ (g.update candle).results → P last g'
  filled : ∀ last g index side price g', P last g →
    (∀ b s, g.buy_order_ = some b → g.sell_order_ = some s → b.index ≠ s.index) →
    (index, some (side, price)) ∈ g.slots →
    g' ∈ (g.on_order_filled to_float index).results → P (some price) g'

theorem GridStrategy.kept_ladder (to_float : ℚ → ℚ) : Kept to_float (OnLadder to_float) where
  update _ _ _ _ h hg := h.update hg
  filled _ _ _ _ _ _ h happart hslot hg := h.filled happart hslot hg

theorem GridStrategy.kept_out (to_float : ℚ → ℚ) : Kept to_float fun _ => Out where
  update _ _ _ _ h hg := (update_decides h hg).1
  filled _ _ _ _ _ _ h _ _ hg := (filled_decides h hg).1

theorem Coupled.apart {held : Option Slot} {g : GridStrategy} {tracked : Map OrderIndex OrderCall}
    (h : Coupled held g.slots tracked) (b s : OrderInfo) (hb : g.buy_order_ = some b)
    (hs : g.sell_order_ = some s) : b.index ≠ s.index := by
  have hnodup := (List.nodup_append.mp h.indices_nodup).2.1
  simp only [GridStrategy.slots, hb, hs, Option.map_some, Option.toList_some,
    List.singleton_append, List.map_cons, List.map_nil, List.nodup_cons, List.mem_singleton]
    at hnodup
  exact hnodup.1

/-- The price of the limit order under the index. -/
def limit_price (tracked : Map OrderIndex OrderCall) (index : OrderIndex) : Option ℚ :=
  ((tracked.find index).bind OrderCall.limit).map Prod.snd

/-- A tracked order is in a slot, with its price. -/
theorem Coupled.limit_price {g : GridStrategy} {tracked : Map OrderIndex OrderCall}
    (h : Coupled none g.slots tracked) {index : OrderIndex} (hk : index ∈ tracked.keys) :
    ∃ side price, (index, some (side, price)) ∈ g.slots ∧
      limit_price tracked index = some price := by
  obtain ⟨order, hfind⟩ := Map.find_of_mem_keys hk
  have hslot : (index, order.limit) ∈ g.slots := h.agree.mem_iff.mp
    (List.mem_map_of_mem (f := fun e => (e.1, OrderCall.limit e.2)) (Map.mem_of_find hfind))
  obtain ⟨side, price, hlimit⟩ : ∃ side price, order.limit = some (side, price) :=
    GridStrategy.slot_limit hslot
  rw [hlimit] at hslot
  refine ⟨side, price, hslot, ?_⟩
  simp [wedge.limit_price, hfind, hlimit]

/-! ## The old backtest engine -/

namespace BacktestRun

/-- The price of the order that the next step tells the strategy about. -/
def filled_price (r : BacktestRun GridStrategy) (_ : Unit) : List ℚ :=
  match r.pc with
  | .filled index _ _ => (limit_price r.context.orders_ index).toList
  | _ => []

/-- The broker of the backtest never fails, so a callback comes to its end. -/
theorem callback_ends {σ : Type} {prog : StrategyProg σ} {pc : BacktestPc} {r : BacktestRun σ}
    (hlive : ∀ fault, (r.callback prog pc).pc ≠ .crashed fault) :
    (r.callback prog pc).strategy ∈ prog.results ∧ (r.callback prog pc).pc = pc := by
  unfold callback at hlive ⊢
  rcases hrun : run BacktestBroker prog r.context with ⟨fault | strategy, context⟩
  · rw [hrun] at hlive
    exact absurd rfl (hlive fault)
  · exact ⟨mem_results_of_run hrun, rfl⟩

theorem kept_step {to_float : ℚ → ℚ} {P : Option ℚ → GridStrategy → Prop}
    (hP : GridStrategy.Kept to_float P) {r r' : BacktestRun GridStrategy}
    (hstep : r.step (grid_strategy to_float) = some r') (h : r.Sound) (prices : List ℚ)
    (hp : P prices.getLast? r.strategy) :
    P (prices ++ r.filled_price ()).getLast? r'.strategy := by
  have hlive := (sound_step hstep h).alive
  have hquiet : (∀ index last candle, r.pc ≠ .filled index last candle) →
      prices ++ r.filled_price () = prices := by
    intro hpc
    unfold filled_price
    split
    · exact absurd ‹_› (hpc _ _ _)
    · exact List.append_nil _
  unfold Sound at h
  cases step_moves hstep with
  | @report index last candle hpc =>
    rw [hpc] at h
    obtain ⟨side, price, hslot, hprice⟩ := h.1.coupled.limit_price h.2.2
    have hlast : (prices ++ r.filled_price ()).getLast? = some price := by
      simp [filled_price, hpc, hprice]
    rw [hlast]
    exact hP.filled _ _ _ _ _ _ hp h.1.coupled.apart hslot (callback_ends hlive).1
  | @update candle hpc =>
    rw [hquiet (by simp [hpc])]
    exact hP.update _ _ _ _ hp (callback_ends hlive).1
  | lost hpc => exact absurd rfl (hlive .undefined)
  | start hpc | finish hpc | bound hpc | pass hpc | trade hpc | forget hpc =>
    rw [hquiet (by simp [hpc])]
    exact hp

end BacktestRun

/-! ## The live engine -/

namespace TradeRun

variable {ν : Type}

/-- The price of the order that the next step tells the strategy about. -/
def filled_price (r : TradeRun GridStrategy ν) (_ : ℤ) : List ℚ :=
  match r.pc with
  | .filled index => (limit_price r.engine.tracked index).toList
  | _ => []

theorem callback_ends {σ : Type} {net : Net ν} {p : Placement OrderIndex TradeOrder}
    {prog : StrategyProg σ} {pc : TradePc} {r : TradeRun σ ν}
    (hlive : ∀ fault, (r.callback net p prog pc).pc ≠ .crashed fault) :
    (r.callback net p prog pc).strategy ∈ prog.results ∧ (r.callback net p prog pc).pc = pc := by
  unfold callback at hlive ⊢
  rcases hrun : run (TradeBroker net p) prog r.engine with ⟨fault | strategy, engine⟩
  · rw [hrun] at hlive
    exact absurd rfl (hlive fault)
  · exact ⟨mem_results_of_run hrun, rfl⟩

theorem kept_step {to_float : ℚ → ℚ} {P : Option ℚ → GridStrategy → Prop}
    (hP : GridStrategy.Kept to_float P) {net : Net ν} {p : Placement OrderIndex TradeOrder}
    {r r' : TradeRun GridStrategy ν} {now : ℤ}
    (hstep : Step (grid_strategy to_float) net p r now r') (h : r.Sound) (prices : List ℚ)
    (hp : P prices.getLast? r.strategy) (hlive : ∀ fault, r'.pc ≠ .crashed fault) :
    P (prices ++ r.filled_price now).getLast? r'.strategy := by
  have hquiet : (∀ index, r.pc ≠ .filled index) → prices ++ r.filled_price now = prices := by
    intro hpc
    unfold filled_price
    split
    · exact absurd ‹_› (hpc _)
    · exact List.append_nil _
  unfold Sound at h
  cases step_moves hstep with
  | @report index hpc =>
    rw [hpc] at h
    obtain ⟨side, price, hslot, hprice⟩ := h.1.coupled.limit_price h.2
    have hlast : (prices ++ r.filled_price now).getLast? = some price := by
      simp [filled_price, hpc, hprice]
    rw [hlast]
    exact hP.filled _ _ _ _ _ _ hp h.1.coupled.apart hslot (callback_ends hlive).1
  | @update candle hpc =>
    rw [hquiet (by simp [hpc])]
    exact hP.update _ _ _ _ hp (callback_ends hlive).1
  | lost => exact absurd rfl (hlive .undefined)
  | poll_failed | fetch_empty | fetch_failed => exact absurd rfl (hlive _)
  | start hpc | finish hpc | poll_filled hpc | poll_open hpc | forget hpc | fetch hpc =>
    rw [hquiet (by simp [hpc])]
    exact hp

/-- There is no step after a crash. -/
theorem alive_of_step {σ : Type} {S : IStrategy σ} {net : Net ν}
    {p : Placement OrderIndex TradeOrder} {r r' : TradeRun σ ν} {now : ℤ}
    (hstep : Step S net p r now r') (fault : Fault) : r.pc ≠ .crashed fault := by
  intro hpc
  unfold Step step at hstep
  rw [hpc] at hstep
  cases hstep

/-- What the callbacks keep holds in every state of a run that has not crashed. -/
theorem kept_alive {to_float : ℚ → ℚ} {P : Option ℚ → GridStrategy → Prop}
    (hP : GridStrategy.Kept to_float P) {net : Net ν} {p : Placement OrderIndex TradeOrder}
    {r r' : TradeRun GridStrategy ν} {now : ℤ}
    (hstep : Step (grid_strategy to_float) net p r now r') (prices : List ℚ)
    (h : r.Sound ∧ ((∀ fault, r.pc ≠ .crashed fault) → P prices.getLast? r.strategy)) :
    r'.Sound ∧ ((∀ fault, r'.pc ≠ .crashed fault) →
      P (prices ++ r.filled_price now).getLast? r'.strategy) := by
  exact ⟨sound_step hstep h.1, kept_step hP hstep h.1 prices (h.2 (alive_of_step hstep))⟩

end TradeRun

/-! ## The orders on the ladder -/

/-- The sides and prices of the tracked orders, but for the one that is reported. -/
def open_limits (held : Option OrderIndex) (tracked : Map OrderIndex OrderCall) :
    List (Option (OrderSide × ℚ)) :=
  ((tracked.view OrderCall.limit).entries.filter fun e => held ≠ some e.1).map Prod.snd

/-- The orders that the engine has of the strategy, with the price of the last order that it has
told about: there are none, or there is the first one, at the baseline, or there are two, one
spacing below that price and one spacing above it, and the price is some spacings away from the
baseline. -/
inductive Laddered (to_float : ℚ → ℚ) (last : Option ℚ) (g : GridStrategy)
    (limits : List (Option (OrderSide × ℚ))) : Prop
  | off : limits = [] → Laddered to_float last g limits
  | first (side : OrderSide) : limits = [some (side, g.baseline_price_)] →
      Laddered to_float last g limits
  | pair (price : ℚ) (k : ℤ) : last = some price →
      price = g.baseline_price_ + k * g.spacing to_float →
      limits.Perm [some (.kBuy, price - g.spacing to_float),
        some (.kSell, price + g.spacing to_float)] → Laddered to_float last g limits

/-- Besides the order that is held aside, the engine has the orders of the slots. -/
theorem Coupled.open_limits {held : Option Slot} {slots : List Slot}
    {tracked : Map OrderIndex OrderCall} (h : Coupled held slots tracked) :
    (open_limits (held.map Prod.fst) tracked).Perm (slots.map Prod.snd) := by
  have hkeep : slots.filter (fun e => held.map Prod.fst ≠ some e.1) = slots := by
    rw [List.filter_eq_self]
    exact fun x hx => decide_eq_true (h.slot_tracked hx).2
  have hdrop : held.toList.filter (fun e => held.map Prod.fst ≠ some e.1) = [] := by
    rcases held with _ | x <;> simp
  have hperm := (h.agree.filter fun e => held.map Prod.fst ≠ some e.1).map Prod.snd
  rw [List.filter_append, hkeep, hdrop, List.nil_append] at hperm
  exact hperm

theorem Coupled.laddered {to_float : ℚ → ℚ} {last : Option ℚ} {held : Option Slot}
    {g : GridStrategy} {tracked : Map OrderIndex OrderCall} (h : Coupled held g.slots tracked)
    (hg : g.OnLadder to_float last) :
    Laddered to_float last g (wedge.open_limits (held.map Prod.fst) tracked) := by
  have hperm := h.open_limits
  unfold GridStrategy.slots at hperm
  cases hg with
  | off hb hs =>
    rw [hb, hs] at hperm
    exact .off hperm.eq_nil
  | first_buy hb hs =>
    rw [hb, hs] at hperm
    exact .first .kBuy (List.perm_singleton.mp hperm)
  | first_sell hb hs =>
    rw [hb, hs] at hperm
    exact .first .kSell (List.perm_singleton.mp hperm)
  | pair k hlast hb hs =>
    rw [hb, hs, GridStrategy.rung_below, GridStrategy.rung_above] at hperm
    exact .pair _ k hlast rfl hperm

/-- In every run of both engines the open orders of the grid strategy stand on its ladder: none, the
first one at the baseline, or one on each side of the price of the last order that the engine has
reported, whatever the candles, the account, the network and the exchange do. -/
theorem the_orders_stand_on_the_ladder (to_float : ℚ → ℚ) (json : StrategyConfig) (volume : ℚ) :
    (∀ (account : Account) (commission : ℚ) (candles : List Candle) (prices : List ℚ)
      (r : BacktestRun GridStrategy),
      runs.Emits (BacktestRun.Step (grid_strategy to_float)) BacktestRun.filled_price
        (BacktestRun.start account commission candles (GridStrategy.start volume json)) prices r →
      Laddered to_float prices.getLast? r.strategy (open_limits r.held r.context.orders_)) ∧
    ∀ (ν : Type) (net : Net ν) (p : Placement OrderIndex TradeOrder) (symbol : String)
      (broker : BinanceBroker) (world : ν) (prices : List ℚ) (r : TradeRun GridStrategy ν),
      runs.Emits (TradeRun.Step (grid_strategy to_float) net p) TradeRun.filled_price
        (TradeRun.start symbol broker world (GridStrategy.start volume json)) prices r →
      (∀ fault, r.pc ≠ .crashed fault) →
      Laddered to_float prices.getLast? r.strategy (open_limits r.held r.engine.tracked) := by
  have hladder := GridStrategy.kept_ladder to_float
  constructor
  · intro account commission candles prices r hrun
    obtain ⟨hsound, hg⟩ := hrun.invariant (l := [])
      (p := fun prices r => r.Sound ∧ r.strategy.OnLadder to_float prices.getLast?)
      (fun _ _ _ _ hstep hs =>
        ⟨BacktestRun.sound_step hstep hs.1, BacktestRun.kept_step hladder hstep hs.1 _ hs.2⟩)
      ⟨BacktestRun.sound_start _ _ _ _ _, .start volume json⟩
    obtain ⟨_, _, x, hx, hs⟩ := hsound.steady
    exact hx ▸ hs.coupled.laddered hg
  · intro ν net p symbol broker world prices r hrun hlive
    obtain ⟨hsound, hg⟩ := hrun.invariant (l := [])
      (p := fun prices r => r.Sound ∧
        ((∀ fault, r.pc ≠ .crashed fault) → r.strategy.OnLadder to_float prices.getLast?))
      (fun _ _ _ _ hstep hs => TradeRun.kept_alive hladder hstep _ hs)
      ⟨⟨fun _ hi => absurd hi List.not_mem_nil, Coupled.start volume json⟩,
        fun _ => .start volume json⟩
    obtain ⟨x, hx, hs⟩ := hsound.steady hlive
    exact hx ▸ hs.coupled.laddered (hg hlive)

/-- In the old engine the grid buys at 100 and sells at 101, and its orders stand at 100 and 102. In
the live engine it buys at 100, and its orders stand at 99 and 101. -/
theorem two_fills_stand_on_the_ladder :
    (∃ r : BacktestRun GridStrategy,
      open_limits r.held r.context.orders_ = [some (.kSell, 102), some (.kBuy, 100)] ∧
      Laddered id (some 101) r.strategy (open_limits r.held r.context.orders_)) ∧
    ∃ r : TradeRun GridStrategy Exchange, r.pc = .reported 0 ∧
      Laddered id (some 100) r.strategy (open_limits r.held r.engine.tracked) := by
  obtain ⟨hback, hlive⟩ := the_orders_stand_on_the_ladder id warm_config 0
  constructor
  · have hrun : (runs.replay_log (fun r _ => r.step (grid_strategy id)) BacktestRun.filled_price
        (fun _ _ => True) (List.replicate 15 ())
        (BacktestRun.start { balance := 1000, position := 0 } (1 / 1000)
          [flat_candle 100, flat_candle 100, flat_candle 101]
          (GridStrategy.start 0 warm_config))).any (fun x => x.1 = [100, 101] ∧
            open_limits x.2.held x.2.context.orders_ =
              [some (.kSell, 102), some (.kBuy, 100)]) = true := by
      decide +kernel
    obtain ⟨⟨prices, r⟩, hr, hout⟩ := (Option.any_eq_true _ _).mp hrun
    obtain ⟨hprices, hlimits⟩ := of_decide_eq_true hout
    have h := hback _ _ _ _ r ((runs.emits_of_replay (fun _ _ _ h => h) hr).mono fun _ _ _ h => h.1)
    rw [show prices = [100, 101] from hprices] at h
    exact ⟨r, hlimits, h⟩
  · have hrun : (runs.replay_log (fun r now => r.step (grid_strategy id)
          (grid_market fun _ _ => .fully).net in_front now) TradeRun.filled_price (fun _ _ => True)
        [0, 0, 0, 0, 1, 1, 1] (TradeRun.start "BTCUSDT" retry_broker {}
          (GridStrategy.start 0 warm_config))).any (fun x =>
            x.1 = [100] ∧ x.2.pc = .reported 0) = true := by
      decide +kernel
    obtain ⟨⟨prices, r⟩, hr, hout⟩ := (Option.any_eq_true _ _).mp hrun
    obtain ⟨hprices, hpc⟩ := of_decide_eq_true hout
    have h := hlive _ _ _ _ _ _ _ r
      ((runs.emits_of_replay (fun _ _ _ h => h) hr).mono fun _ _ _ h => h.1)
      (fun fault => by rw [show r.pc = .reported 0 from hpc]; nofun)
    rw [show prices = [100] from hprices] at h
    exact ⟨r, hpc, h⟩

/-! ## In and out of the market -/

/-- The indicator of the strategy after some candles. -/
def GridStrategy.index_after (json : StrategyConfig) (candles : List Candle) :
    RelativeStrengthIndex :=
  RelativeStrengthIndex.after 20 (json.rsi_price.getD [] ++ candles.map Candle.close_price)

namespace BacktestRun

/-- The candle that `update` has not got yet. -/
def current (r : BacktestRun GridStrategy) : Option Candle :=
  match r.pc with
  | .visit _ _ candle => some candle
  | .filled _ _ candle => some candle
  | .reported _ _ candle => some candle
  | .swept candle => some candle
  | _ => none

/-- What a run keeps, once `update` has got the candles `seen`. -/
structure Watches (json : StrategyConfig) (account : Account) (seen : List Candle)
    (r : BacktestRun GridStrategy) : Prop where
  index : r.strategy.index_ = GridStrategy.index_after json seen
  present : seen ≠ [] → r.strategy.In
  untouched : r.strategy.index_.value = none → r.context.account_ = account

theorem Watches.same {json : StrategyConfig} {account : Account} {seen : List Candle}
    {r r' : BacktestRun GridStrategy} (h : r.Watches json account seen)
    (hg : r'.strategy = r.strategy) (ha : r'.context.account_ = r.context.account_) :
    r'.Watches json account seen :=
  ⟨hg ▸ h.index, hg ▸ h.present, hg ▸ ha ▸ h.untouched⟩

/-- The calls of a strategy leave the account as it is. -/
theorem callback_account {σ : Type} (prog : StrategyProg σ) (pc : BacktestPc) (r : BacktestRun σ) :
    (r.callback prog pc).context.account_ = r.context.account_ := by
  rw [callback_context]
  refine (obeys_true BacktestBroker prog r.context).keeps
    (p := fun c => c.account_ = r.context.account_) (fun op c _ hc => ?_) rfl
  cases op <;> exact hc

theorem index_after_concat (json : StrategyConfig) (seen : List Candle) (candle : Candle) :
    GridStrategy.index_after json (seen ++ [candle]) =
      (GridStrategy.index_after json seen).update candle.close_price := by
  simp only [GridStrategy.index_after, RelativeStrengthIndex.after, List.map_append,
    List.map_singleton, ← List.append_assoc, List.foldl_concat]

/-- Nothing trades before the indicator has a value. -/
theorem Sound.value_of_order {r : BacktestRun GridStrategy} {last : OrderIndex}
    {index : OrderIndex} (h : r.Steady last none) (hout : r.strategy.Out)
    (hi : index ∈ r.context.orders_.keys) : r.strategy.index_.value ≠ none := by
  intro hnone
  obtain ⟨hb, hs⟩ := hout (by simp [RelativeStrengthIndex.Stops, hnone])
  rcases h.coupled.mem_keys_iff.mp hi with hmem | hmem
  · simp [GridStrategy.slots, hb, hs] at hmem
  · cases hmem

theorem watches_step {to_float : ℚ → ℚ} {json : StrategyConfig} {account : Account}
    {seen : List Candle} {r r' : BacktestRun GridStrategy}
    (hstep : r.step (grid_strategy to_float) = some r') (h : r.Sound) (hout : r.strategy.Out)
    (hw : r.Watches json account seen) : ∃ seen', r'.Watches json account seen' ∧
      seen' ++ r'.current.toList ++ r'.data_loader = seen ++ r.current.toList ++ r.data_loader := by
  have hlive := (sound_step hstep h).alive
  have hcurrent : ∀ {r : BacktestRun GridStrategy} {pc : BacktestPc}, r.pc = pc →
      r.current = current { r with pc := pc } := by
    rintro r _ rfl
    rfl
  unfold Sound at h
  cases step_moves hstep with
  | start hpc hd =>
    refine ⟨seen, hw.same rfl rfl, ?_⟩
    rw [hcurrent hpc, hd]
    simp [current]
  | finish hpc => exact ⟨seen, hw.same rfl rfl, by rw [hcurrent hpc]; rfl⟩
  | bound hpc _ => exact ⟨seen, hw.same rfl rfl, by rw [hcurrent hpc]; rfl⟩
  | pass hpc => exact ⟨seen, hw.same rfl rfl, by rw [hcurrent hpc]; rfl⟩
  | @trade index last candle order hpc _ hfind _ =>
    rw [hpc] at h
    have hvalue := Sound.value_of_order h.1 hout (Map.mem_keys_of_find hfind)
    exact ⟨seen, ⟨hw.index, hw.present, fun hnone => absurd hnone hvalue⟩,
      by rw [hcurrent hpc]; rfl⟩
  | lost => exact absurd rfl (hlive .undefined)
  | @report index last candle hpc =>
    obtain ⟨hg, hend⟩ := callback_ends hlive
    have hindex := GridStrategy.index_of_order_filled hg
    refine ⟨seen, ⟨?_, fun _ => ?_, fun hnone => ?_⟩, ?_⟩
    · rw [hindex, hw.index]
    · exact (GridStrategy.filled_decides hout hg).2
    · rw [callback_account]
      exact hw.untouched (hindex ▸ hnone)
    · rw [hcurrent hpc, hcurrent hend, callback_data_loader]
      rfl
  | forget hpc => exact ⟨seen, hw.same rfl rfl, by rw [hcurrent hpc]; rfl⟩
  | @update candle hpc =>
    obtain ⟨hg, hend⟩ := callback_ends hlive
    have hindex := GridStrategy.index_of_update hg
    refine ⟨seen ++ [candle], ⟨?_, fun _ => ?_, fun hnone => ?_⟩, ?_⟩
    · rw [hindex, hw.index, index_after_concat]
    · exact (GridStrategy.update_decides hout hg).2
    · rw [callback_account]
      refine hw.untouched (by_contra fun hsome => ?_)
      exact RelativeStrengthIndex.value_stays candle.close_price hsome (hindex ▸ hnone)
    · rw [hcurrent hpc, hcurrent hend, callback_data_loader]
      simp [current]

end BacktestRun

/-- Behind a report the indicator does not stop the strategy. -/
theorem TradeRun.reported_goes {ν : Type} {to_float : ℚ → ℚ} {net : Net ν}
    {p : Placement OrderIndex TradeOrder} {r r' : TradeRun GridStrategy ν} {now : ℤ}
    (hstep : Step (grid_strategy to_float) net p r now r') (hout : r.strategy.Out)
    {k : OrderIndex} (hpc' : r'.pc = .reported k) : ¬ r'.strategy.index_.Stops := by
  have hlive : ∀ fault, r'.pc ≠ .crashed fault := by simp [hpc']
  cases step_moves hstep with
  | report hpc => exact GridStrategy.filled_goes hout (callback_ends hlive).1
  | update hpc => cases hpc'.symm.trans (callback_ends hlive).2
  | _ => cases hpc'

theorem GridStrategy.value_none_iff (json : StrategyConfig) (seen : List Candle) :
    (index_after json seen).value = none ↔ (json.rsi_price.getD []).length + seen.length ≤ 20 := by
  have hiff := ((RelativeStrengthIndex.holds_after 20
    (json.rsi_price.getD [] ++ seen.map Candle.close_price)).isIndex (by decide)).none_iff
  rw [List.length_append, List.length_map] at hiff
  exact hiff.trans Nat.lt_succ_iff

theorem Coupled.keys_nil_iff {g : GridStrategy} {tracked : Map OrderIndex OrderCall}
    (h : Coupled none g.slots tracked) :
    tracked.keys = [] ↔ g.buy_order_ = none ∧ g.sell_order_ = none := by
  have hperm : tracked.keys.Perm (g.slots.map Prod.fst) := h.keys_perm
  have hnil : tracked.keys = [] ↔ g.slots.map Prod.fst = [] :=
    ⟨fun heq => (heq ▸ hperm).nil_eq.symm, fun heq => (heq ▸ hperm).eq_nil⟩
  rw [hnil]
  rcases hb : g.buy_order_ with _ | b <;> rcases hs : g.sell_order_ with _ | o <;>
    simp [GridStrategy.slots, hb, hs]

/-- The indicator alone decides whether the grid is in the market. In the backtest, once `update`
has got a candle, there is an open order between two candles exactly when the index of the prices
so far has a value that is not below 20, and before there are 21 prices the account is as it was.
In the live engine there is no order either, at any time, while the index has no such value. -/
theorem the_index_decides_on_the_orders (to_float : ℚ → ℚ) (json : StrategyConfig) (volume : ℚ) :
    (∀ (account : Account) (commission : ℚ) (candles : List Candle) (n : List Unit)
      (r : BacktestRun GridStrategy),
      runs.Run (BacktestRun.Step (grid_strategy to_float))
        (BacktestRun.start account commission candles (GridStrategy.start volume json)) n r →
      r.pc = .next → ∃ seen, candles = seen ++ r.data_loader ∧
        (seen ≠ [] →
          (r.context.orders_.keys = [] ↔ (GridStrategy.index_after json seen).Stops)) ∧
        ((json.rsi_price.getD []).length + seen.length ≤ 20 →
          r.context.orders_.keys = [] ∧ r.context.account_ = account)) ∧
    ∀ (ν : Type) (net : Net ν) (p : Placement OrderIndex TradeOrder) (symbol : String)
      (broker : BinanceBroker) (world : ν) (times : List ℤ) (r : TradeRun GridStrategy ν),
      runs.Run (TradeRun.Step (grid_strategy to_float) net p)
        (TradeRun.start symbol broker world (GridStrategy.start volume json)) times r →
      (∀ fault, r.pc ≠ .crashed fault) → r.strategy.index_.Stops →
      r.engine.orders_.keys = [] := by
  have hkept := GridStrategy.kept_out to_float
  constructor
  · intro account commission candles n r hrun hpc
    obtain ⟨hsound, hout, seen, hw, hseen⟩ := hrun.invariant
      (p := fun r => r.Sound ∧ r.strategy.Out ∧ ∃ seen, r.Watches json account seen ∧
        candles = seen ++ r.current.toList ++ r.data_loader)
      (fun _ _ _ hstep h => by
        obtain ⟨hs, ho, seen, hw, heq⟩ := h
        obtain ⟨seen', hw', heq'⟩ := BacktestRun.watches_step hstep hs ho hw
        exact ⟨BacktestRun.sound_step hstep hs,
          BacktestRun.kept_step hkept hstep hs [] ho, seen', hw', heq.trans heq'.symm⟩)
      ⟨BacktestRun.sound_start _ _ _ _ _, GridStrategy.out_start volume json, [],
        ⟨by rw [GridStrategy.index_after, List.map_nil, List.append_nil]
            exact GridStrategy.index_of_start volume json, fun hne => absurd rfl hne,
          fun _ => rfl⟩, rfl⟩
    rw [BacktestRun.Sound, hpc] at hsound
    have hkeys := hsound.1.coupled.keys_nil_iff
    refine ⟨seen, ?_, fun hne => ⟨fun hnil => ?_, fun hstops => ?_⟩, fun hfew => ⟨?_, ?_⟩⟩
    · rw [hseen, BacktestRun.current, hpc]
      simp
    · obtain ⟨hb, hs⟩ := hkeys.mp hnil
      rcases hw.present hne with hstops | hb' | hs'
      · exact hw.index ▸ hstops
      · exact absurd hb hb'
      · exact absurd hs hs'
    · exact hkeys.mpr (hout (hw.index ▸ hstops))
    · refine hkeys.mpr (hout ?_)
      rw [hw.index, RelativeStrengthIndex.Stops, (GridStrategy.value_none_iff json seen).mpr hfew]
      trivial
    · exact hw.untouched (hw.index ▸ (GridStrategy.value_none_iff json seen).mpr hfew)
  · intro ν net p symbol broker world times r hrun hlive hstops
    obtain ⟨⟨hsound, hout⟩, hgoes⟩ := hrun.invariant
      (p := fun r => (r.Sound ∧ ((∀ fault, r.pc ≠ .crashed fault) → r.strategy.Out)) ∧
        ∀ k, r.pc = .reported k → ¬ r.strategy.index_.Stops)
      (fun _ _ _ hstep hs => ⟨TradeRun.kept_alive hkept hstep [] hs.1,
        fun k => TradeRun.reported_goes hstep (hs.1.2 (TradeRun.alive_of_step hstep))⟩)
      ⟨⟨⟨fun _ hi => absurd hi List.not_mem_nil, Coupled.start volume json⟩,
        fun _ => GridStrategy.out_start volume json⟩, by rintro _ ⟨⟩⟩
    obtain ⟨x, hx, hs⟩ := hsound.steady hlive
    have hheld : r.held = none := by
      unfold TradeRun.held
      split
      · exact absurd hstops (hgoes _ ‹_›)
      · rfl
    rw [hheld, Option.map_eq_none_iff] at hx
    subst hx
    rw [← TradeEngine.keys_tracked]
    exact hs.coupled.keys_nil_iff.mpr (hout hlive hstops)

/-- A grid without a history. -/
def cold_config : StrategyConfig :=
  { grid_count := 5, grid_spacing := 1 / 100, rsi_price := none }

/-- Both engines have given the strategy its first candle, and neither has an order. With a history
of prices the backtest has an order then. -/
theorem a_cold_grid_waits_and_a_warm_one_does_not :
    (∃ r : BacktestRun GridStrategy, r.data_loader = [] ∧ r.context.orders_.keys = [] ∧
      r.context.account_ = { balance := 1000, position := 0 }) ∧
    (∃ r : TradeRun GridStrategy Exchange, r.engine.world.clock = 1 ∧
      r.engine.orders_.keys = []) ∧
    ∃ r : BacktestRun GridStrategy, r.data_loader = [] ∧
      ¬ (GridStrategy.index_after warm_config [flat_candle 100]).Stops ∧
      r.context.orders_.keys ≠ [] := by
  obtain ⟨hback, hlive⟩ := the_index_decides_on_the_orders id cold_config 0
  obtain ⟨hwarm, _⟩ := the_index_decides_on_the_orders id warm_config 0
  refine ⟨?_, ?_, ?_⟩
  · have hrun : ((runs.replay (fun r _ => r.step (grid_strategy id)) (fun _ _ => True)
        (List.replicate 3 ()) (BacktestRun.start { balance := 1000, position := 0 } (1 / 1000)
          [flat_candle 100] (GridStrategy.start 0 cold_config))).map
          fun r => (r.pc, r.data_loader)) = some (.next, []) := by
      decide +kernel
    obtain ⟨r, hr, heq⟩ := Option.map_eq_some_iff.mp hrun
    obtain ⟨hpc, hdone⟩ := Prod.mk.inj heq
    obtain ⟨seen, hseen, _, hfew⟩ :=
      hback _ _ _ _ r (runs.run_of_replay (fun _ _ _ h => h) hr).forget hpc
    rw [hdone, List.append_nil] at hseen
    obtain ⟨hkeys, haccount⟩ := hfew (by rw [← hseen]; decide)
    exact ⟨r, hdone, hkeys, haccount⟩
  · have hrun : ((runs.replay (fun r now => r.step (grid_strategy id)
          (grid_market fun _ _ => .fully).net in_front now) (fun _ _ => True)
        [0, 0, 0, 0] (TradeRun.start "BTCUSDT" retry_broker {}
          (GridStrategy.start 0 cold_config))).map fun r =>
            (r.pc, r.engine.world.clock, decide r.strategy.index_.Stops)) =
          some (.idle, 1, true) := by
      decide +kernel
    obtain ⟨r, hr, heq⟩ := Option.map_eq_some_iff.mp hrun
    simp only [Prod.mk.injEq, decide_eq_true_eq] at heq
    obtain ⟨hpc, hclock, hstops⟩ := heq
    exact ⟨r, hclock, hlive _ _ _ _ _ _ _ r (runs.run_of_replay (fun _ _ _ h => h) hr).forget
      (by simp [hpc]) hstops⟩
  · have hrun : ((runs.replay (fun r _ => r.step (grid_strategy id)) (fun _ _ => True)
        (List.replicate 3 ()) (BacktestRun.start { balance := 1000, position := 0 } (1 / 1000)
          [flat_candle 100] (GridStrategy.start 0 warm_config))).map
          fun r => (r.pc, r.data_loader)) = some (.next, []) := by
      decide +kernel
    have hgoes : ¬ (GridStrategy.index_after warm_config [flat_candle 100]).Stops := by
      decide +kernel
    obtain ⟨r, hr, heq⟩ := Option.map_eq_some_iff.mp hrun
    obtain ⟨hpc, hdone⟩ := Prod.mk.inj heq
    obtain ⟨seen, hseen, hiff, _⟩ :=
      hwarm _ _ _ _ r (runs.run_of_replay (fun _ _ _ h => h) hr).forget hpc
    rw [hdone, List.append_nil] at hseen
    subst hseen
    exact ⟨r, hdone, hgoes, fun hnil => hgoes ((hiff (by simp)).mp hnil)⟩

end wedge
