-- The grid strategy in the live engine, with any network behind it, and with
-- it the agreement of the strategy with both engines. A request that fails ends
-- the process, so the agreement needs nothing of the network.
import Wedge.Backtest.Bookkeeping
import Wedge.Trade.Exchange

namespace wedge

open programs containers

variable {ν : Type}

namespace TradeEngine

/-- The orders of the map as they were placed. -/
def tracked (e : TradeEngine ν) : Map OrderIndex OrderCall := e.orders_.view TradeOrder.order

/-- The indices of the map were given out. -/
def Fits (e : TradeEngine ν) : Prop := ∀ i ∈ e.orders_.keys, i < e.last_order_index_

theorem keys_tracked (e : TradeEngine ν) : e.tracked.keys = e.orders_.keys :=
  Map.keys_view TradeOrder.order e.orders_

theorem tracked_erase (e : TradeEngine ν) (index : OrderIndex) :
    (e.orders_.erase index).view TradeOrder.order = e.tracked.erase index :=
  (Map.erase_view TradeOrder.order e.orders_ index).symm

theorem Fits.new {e : TradeEngine ν} (h : e.Fits) : e.last_order_index_ ∉ e.orders_.keys :=
  fun hk => Nat.lt_irrefl _ (h _ hk)

section add_order

variable {e : TradeEngine ν} (p : Placement OrderIndex TradeOrder) (order : OrderCall)
  (order_id : ℕ)

theorem Fits.tracked_perm (h : e.Fits) : (e.add_order p order order_id).2.tracked.entries.Perm
    ((e.last_order_index_, order) :: e.tracked.entries) := (p.emplace_perm _ h.new).map _

theorem Fits.add_order (h : e.Fits) : (e.add_order p order order_id).2.Fits := by
  intro i hi
  rcases (p.mem_keys_emplace h.new).mp hi with rfl | hi
  · exact Nat.lt_succ_self _
  · exact Nat.lt_succ_of_lt (h i hi)

end add_order

theorem Fits.erase {e e' : TradeEngine ν} (h : e.Fits) {index : OrderIndex}
    (ho : e'.orders_ = e.orders_.erase index) (hl : e'.last_order_index_ = e.last_order_index_) :
    e'.Fits := by
  intro i hi
  rw [ho] at hi
  rw [hl]
  exact h i (Map.mem_keys_erase.mp hi).1

end TradeEngine

/-- The live broker keeps the map like the one of the backtest, and no failure of a request is
a failed assertion. -/
theorem trade_tracker (net : Net ν) (p : Placement OrderIndex TradeOrder)
    (processed : Option OrderIndex) :
    Tracker (TradeBroker net p) TradeEngine.tracked TradeEngine.Fits (fun _ _ => True)
      (fun fault _ => fault ≠ .assertion) 0 processed where
  place order e h _ := by
    rcases TradeBroker.place_cases net p e order with ⟨order_id, w, _, hp⟩ | ⟨fault, w, hrun, hp⟩
    · have hw : TradeEngine.Fits { e with world := w } := h
      exact Or.inl ⟨_, _, hp, hw.add_order p order order_id, Nat.zero_le _,
        hw.tracked_perm p order order_id⟩
    · refine Or.inr ⟨fault, _, hp, ?_⟩
      rintro rfl
      exact NoAssertion.create e.broker_ e.symbol_ order e.world (by rw [hrun])
  cancel i e h hg _ := by
    have hi : i ∈ e.orders_.keys := e.keys_tracked ▸ hg.1
    obtain ⟨order, hf⟩ := Map.find_of_mem_keys hi
    rcases TradeBroker.cancel_cases net p e hf with ⟨w, _, hc⟩ | ⟨fault, w, hrun, hc⟩
    · exact Or.inl ⟨_, hc, h.erase rfl rfl, e.tracked_erase i⟩
    · refine Or.inr ⟨fault, _, hc, ?_⟩
      rintro rfl
      exact NoAssertion.cancel_order e.broker_ e.symbol_ _ e.world (by rw [hrun])
  account e h _ := by
    obtain ⟨w, _, ⟨a, ha⟩ | ha | ⟨fault, hrun, ha⟩⟩ := TradeBroker.account_cases net p e
    · exact Or.inl ⟨a, _, ha, h, rfl⟩
    · exact Or.inr ⟨.undefined, _, ha, by decide⟩
    · refine Or.inr ⟨fault, _, ha, ?_⟩
      rintro rfl
      exact NoAssertion.get_account e.broker_ e.world hrun

namespace TradeRun

/-- Between the calls of the strategy, the slots agree with the map. -/
abbrev Steady (held : Option Slot) (r : TradeRun GridStrategy ν) : Prop :=
  InStep TradeEngine.Fits TradeEngine.tracked held r.strategy r.engine

/-- What holds at each place of the run. -/
def Sound (r : TradeRun GridStrategy ν) : Prop :=
  match r.pc with
  | .idle => r.Steady none
  | .visit iterator => r.Steady none ∧ ∀ k, iterator = some k → k ∈ r.engine.tracked.keys
  | .filled k => r.Steady none ∧ k ∈ r.engine.tracked.keys
  | .reported k => ∃ x : Slot, x.1 = k ∧ r.Steady (some x)
  | .swept => r.Steady none
  | .fetched _ => r.Steady none
  | .crashed fault => fault ≠ .assertion

/-- The rule of a callback: it ends as its contract says, or in a crash. -/
theorem callback_rule {σ : Type} {P : TradeRun σ ν → Prop} {net : Net ν}
    {p : Placement OrderIndex TradeOrder} {rely guar : BrokerCall → TradeEngine ν → Prop}
    {err : Fault → TradeEngine ν → Prop} {prog : StrategyProg σ}
    {post : σ → TradeEngine ν → Prop} {r : TradeRun σ ν} {pc : TradePc}
    (h : Safe (TradeBroker net p) rely guar err prog post r.engine)
    (hob : Obeys (TradeBroker net p) rely prog r.engine)
    (hpost : ∀ g e, post g e → P { r with pc := pc, engine := e, strategy := g })
    (herr : ∀ f e, err f e → P { r with pc := .crashed f, engine := e }) :
    P (r.callback net p prog pc) := by
  unfold callback
  rcases h.ends hob with ⟨g, e, hrun, h1⟩ | ⟨f, e, hrun, h1⟩
  · rw [hrun]
    exact hpost g e h1
  · rw [hrun]
    exact herr f e h1

theorem sound_step {to_float : ℚ → ℚ} {net : Net ν} {p : Placement OrderIndex TradeOrder}
    {r r' : TradeRun GridStrategy ν} {now : ℤ}
    (hstep : Step (grid_strategy to_float) net p r now r') (h : r.Sound) : r'.Sound := by
  unfold Sound at h
  cases step_moves hstep with
  | start hpc =>
    rw [hpc] at h
    refine ⟨h, fun k hk => ?_⟩
    rw [TradeEngine.keys_tracked]
    exact Map.first_mem hk
  | finish hpc =>
    rw [hpc] at h
    exact h.1
  | @poll_filled index order engine hpc _ hp =>
    rw [hpc] at h
    rcases r.engine.poll_cases net order with ⟨filled, w, _, he⟩ | ⟨fault, w, _, he⟩ <;>
      rw [hp] at he <;> cases he
    exact ⟨⟨h.1.inv, h.1.coupled⟩, h.2 index rfl⟩
  | @poll_open index order engine hpc _ hp =>
    rw [hpc] at h
    rcases r.engine.poll_cases net order with ⟨filled, w, _, he⟩ | ⟨fault, w, _, he⟩ <;>
      rw [hp] at he <;> cases he
    refine ⟨⟨h.1.inv, h.1.coupled⟩, fun k hk => ?_⟩
    rw [TradeEngine.keys_tracked]
    exact (Map.next_mem hk).1
  | @poll_failed index order engine fault hpc _ hp =>
    rcases r.engine.poll_cases net order with ⟨filled, w, _, he⟩ | ⟨fault', w, hrun, he⟩ <;>
      rw [hp] at he <;> cases he
    rintro rfl
    exact NoAssertion.get_order _ _ _ _ (by rw [hrun])
  | lost hpc hk => exact (by decide : Fault.undefined ≠ .assertion)
  | @report index hpc =>
    rw [hpc] at h
    apply callback_rule (r := { r with reported := r.reported ++ [index] })
      (on_order_filled_safe (trade_tracker net p (some index)) to_float h.1 h.2)
      (obeys_true _ _ _)
    · rintro g e ⟨x, hx, hpost, _⟩
      exact ⟨x, hx, hpost⟩
    · intro f e hf
      exact hf
  | @forget index hpc _ =>
    rw [hpc] at h
    obtain ⟨x, rfl, hs⟩ := h
    refine ⟨⟨hs.inv.erase rfl rfl, ?_⟩, fun k hk => ?_⟩
    · have hrelease := hs.coupled.release
      rw [← TradeEngine.tracked_erase] at hrelease
      exact hrelease
    · rw [TradeEngine.keys_tracked]
      exact Map.mem_keys_erase.mpr (Map.next_mem hk)
  | fetch hpc _ hu =>
    rw [hpc] at h
    have he : _ = _ := congrArg Prod.snd hu
    subst he
    exact ⟨h.inv, h.coupled⟩
  | fetch_empty hpc hu => exact (by decide : Fault.undefined ≠ .assertion)
  | fetch_failed hpc hu =>
    rintro rfl
    have hsafe : NoAssertion net _ :=
      .get_klines r.engine.broker_ "BTCUSDT" "30m" (now - 1800000) now
    exact hsafe r.engine.world (congrArg Prod.fst hu)
  | @update candle hpc =>
    rw [hpc] at h
    apply callback_rule (update_safe (trade_tracker net p none) candle h) (obeys_true _ _ _)
    · intro g e hpost
      exact hpost
    · intro f e hf
      exact hf

theorem sound_run {to_float : ℚ → ℚ} {net : Net ν} {p : Placement OrderIndex TradeOrder}
    {r r' : TradeRun GridStrategy ν} {times : List ℤ}
    (hrun : runs.Run (Step (grid_strategy to_float) net p) r times r') (h : r.Sound) : r'.Sound :=
  hrun.invariant (fun _ _ _ hstep hs => sound_step hstep hs) h

/-- The order that `on_order_filled` was called for and that is still in the map. -/
def held {σ : Type} (r : TradeRun σ ν) : Option OrderIndex :=
  match r.pc with
  | .reported index => some index
  | _ => none

/-- The books of the strategy and of the engine: no assertion fails, the agreement before and
after each callback, and cancels of other tracked orders only. -/
structure Books (to_float : ℚ → ℚ) (net : Net ν) (p : Placement OrderIndex TradeOrder)
    (r : TradeRun GridStrategy ν) : Prop where
  no_assertion : r.pc ≠ .crashed .assertion
  agrees : (∀ fault, r.pc ≠ .crashed fault) → Agrees r.held r.strategy r.engine.tracked
  filled_cancels : ∀ index, r.pc = .filled index →
    Obeys (TradeBroker net p) (CancelsTracked TradeEngine.tracked (some index))
      (r.strategy.on_order_filled to_float index) r.engine
  update_cancels : ∀ candle, r.pc = .fetched candle →
    Obeys (TradeBroker net p) (CancelsTracked TradeEngine.tracked none)
      (r.strategy.update candle) r.engine

theorem Sound.steady {r : TradeRun GridStrategy ν} (h : r.Sound)
    (hpc : ∀ fault, r.pc ≠ .crashed fault) : ∃ x, x.map Prod.fst = r.held ∧ r.Steady x := by
  unfold Sound at h
  unfold held
  rcases hp : r.pc with _ | it | k | k | _ | candle | f <;> rw [hp] at h
  · exact ⟨none, rfl, h⟩
  · exact ⟨none, rfl, h.1⟩
  · exact ⟨none, rfl, h.1⟩
  · obtain ⟨x, rfl, hs⟩ := h
    exact ⟨some x, rfl, hs⟩
  · exact ⟨none, rfl, h⟩
  · exact ⟨none, rfl, h⟩
  · exact absurd hp (hpc f)

theorem Sound.books {to_float : ℚ → ℚ} {net : Net ν} {p : Placement OrderIndex TradeOrder}
    {r : TradeRun GridStrategy ν} (h : r.Sound) : r.Books to_float net p := by
  refine ⟨?_, ?_, ?_, ?_⟩
  · intro hpc
    rw [Sound, hpc] at h
    exact h rfl
  · intro hpc
    obtain ⟨x, hx, hs⟩ := h.steady hpc
    rw [← hx]
    exact hs.coupled.agrees
  · intro index hpc
    rw [Sound, hpc] at h
    exact (on_order_filled_safe (trade_tracker net p (some index)) to_float h.1 h.2).obeys
      (obeys_true _ _ _)
  · intro candle hpc
    rw [Sound, hpc] at h
    exact (update_safe (trade_tracker net p none) candle h).obeys (obeys_true _ _ _)

end TradeRun

/-- The slots of the grid strategy agree with both engines that run it: with the old backtest
engine on every list of candles, and with the live engine before every network, whatever its
polls say and however its map orders the entries. -/
theorem the_slots_agree_with_both_engines (to_float : ℚ → ℚ) (json : StrategyConfig)
    (volume : ℚ) :
    (∀ (account : Account) (commission : ℚ) (candles : List Candle) (n : List Unit)
      (r : BacktestRun GridStrategy),
      runs.Run (BacktestRun.Step (grid_strategy to_float))
        (BacktestRun.start account commission candles (GridStrategy.start volume json)) n r →
      r.Books to_float) ∧
    ∀ (ν : Type) (net : Net ν) (p : Placement OrderIndex TradeOrder) (symbol : String)
      (broker : BinanceBroker) (world : ν) (times : List ℤ) (r : TradeRun GridStrategy ν),
      runs.Run (TradeRun.Step (grid_strategy to_float) net p)
        (TradeRun.start symbol broker world (GridStrategy.start volume json)) times r →
      r.Books to_float net p := by
  have hcoupled := Coupled.start volume json
  constructor
  · intro account commission candles n r hrun
    apply BacktestRun.Sound.books
    exact BacktestRun.sound_run hrun (BacktestRun.sound_start _ _ _ _ _)
  · intro ν net p symbol broker world times r hrun
    apply TradeRun.Sound.books
    apply TradeRun.sound_run hrun
    exact ⟨fun _ hi => absurd hi List.not_mem_nil, hcoupled⟩

/-- A candle at the price 100, as the exchange sends it. -/
def kline_at_100 : Json :=
  .arr [.num 0, .str "100", .str "100", .str "100", .str "100", .str "1", .num 1800000,
    .str "100", .num 1, .str "0", .str "0"]

/-- The amounts of the account, as the exchange sends them. -/
def account_of_1000 : Json :=
  .obj [("balances", .arr [
    .obj [("asset", .str "USDT"), ("free", .str "1000"), ("locked", .str "0")],
    .obj [("asset", .str "BTC"), ("free", .str "0"), ("locked", .str "0")]])]

/-- A market for the grid strategy: it numbers the orders by the requests, its second answer is
the account, and the others are candles at the price 100. -/
def grid_market (trades : ℕ → ℕ → Execution) : Market where
  next_id := id
  trades := trades
  info clock := if clock = 1 then account_of_1000 else .arr [kline_at_100]

/-- A grid with an indicator that has seen enough prices. -/
def warm_config : StrategyConfig where
  grid_count := 5
  grid_spacing := 1 / 100
  rsi_price := some ((List.range 21).map fun n => if n % 2 = 0 then 100 else 101)

/-- In both engines the first order of the grid fills, and its callback has placed two more. -/
theorem the_slots_agree_after_the_first_fill :
    (∃ r : BacktestRun GridStrategy, r.fills = 1 ∧ r.context.orders_.keys = [0, 1, 2] ∧
      r.Books id) ∧
    ∃ r : TradeRun GridStrategy Exchange, r.pc = .reported 0 ∧
      r.engine.orders_.keys = [2, 1, 0] ∧
      r.Books id (grid_market fun _ _ => .fully).net in_front := by
  obtain ⟨hback, hlive⟩ := the_slots_agree_with_both_engines id warm_config 0
  constructor
  · have hrun : ((runs.replay (fun r _ => r.step (grid_strategy id)) (fun _ _ => True)
        (List.replicate 6 ()) (BacktestRun.start { balance := 1000, position := 0 } (1 / 1000)
          [flat_candle 100, flat_candle 100] (GridStrategy.start 0 warm_config))).map
          fun r => (r.fills, r.context.orders_.keys)) = some (1, [0, 1, 2]) := by decide +kernel
    obtain ⟨r, hr, heq⟩ := Option.map_eq_some_iff.mp hrun
    obtain ⟨hfills, hkeys⟩ := Prod.mk.inj heq
    exact ⟨r, hfills, hkeys, hback _ _ _ _ r (runs.run_of_replay (fun _ _ _ h => h) hr).forget⟩
  · have hrun : ((runs.replay (fun r now => r.step (grid_strategy id)
          (grid_market fun _ _ => .fully).net in_front now) (fun _ _ => True)
        [0, 0, 0, 0, 1, 1, 1] (TradeRun.start "BTCUSDT" retry_broker {}
          (GridStrategy.start 0 warm_config))).map
          fun r => (r.pc, r.engine.orders_.keys)) = some (.reported 0, [2, 1, 0]) := by
      decide +kernel
    obtain ⟨r, hr, heq⟩ := Option.map_eq_some_iff.mp hrun
    obtain ⟨hpc, hkeys⟩ := Prod.mk.inj heq
    exact ⟨r, hpc, hkeys, hlive _ _ _ _ _ _ _ r
      (runs.run_of_replay (fun _ _ _ h => h) hr).forget⟩

end wedge
