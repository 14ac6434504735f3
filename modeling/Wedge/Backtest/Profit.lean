-- The profit of the grid in closed form. Without a commission the account after any
-- walk over the levels depends on the level that the walk has come to and on the
-- number of fills, and on nothing else.
import Wedge.Backtest.Bookkeeping
import Wedge.Backtest.GridFunds

namespace wedge

open programs containers runs

namespace BacktestRun

variable {σ : Type}

/-- The side and the price of the order that the step executes. -/
def trades (r : BacktestRun σ) (_ : Unit) : List (OrderSide × ℚ) :=
  match r.pc with
  | .visit (some index) last_index candle =>
    if index < last_index then
      match r.context.orders_.find index with
      | none => []
      | some order =>
        if (order.update r.context candle).1 then [(order.side, order.fill_price candle)] else []
    else []
  | _ => []

theorem sides_traded (r : BacktestRun σ) (a : Unit) : (r.trades a).map Prod.fst = r.traded a := by
  unfold trades traded
  rcases r.pc with _ | ⟨_ | index, last, candle⟩ | _ | _ | _ | _ <;> try rfl
  dsimp only
  split
  · rcases r.context.orders_.find index with _ | order
    · rfl
    · dsimp only
      split <;> rfl
  · rfl

/-- Each trade is the one of an order in the map. -/
theorem mem_trades {r : BacktestRun σ} {a : Unit} {e : OrderSide × ℚ} (he : e ∈ r.trades a) :
    ∃ index last_index candle order, r.pc = .visit (some index) last_index candle ∧
      r.context.orders_.find index = some order ∧ r.trades a = [e] ∧
      e = (order.side, order.fill_price candle) := by
  unfold trades at he ⊢
  rcases hpc : r.pc with _ | ⟨_ | index, last, candle⟩ | _ | _ | _ | _ <;> rw [hpc] at he <;>
    dsimp only at he ⊢ <;> try cases he
  split at he
  · rename_i hlt
    rcases hfind : r.context.orders_.find index with _ | order <;> rw [hfind] at he <;>
      dsimp only at he
    · cases he
    · split at he
      · rename_i hexec
        cases List.mem_singleton.mp he
        exact ⟨index, last, candle, order, rfl, hfind, by simp [hlt, hexec], rfl⟩
      · cases he
  · cases he

/-- No filled order waits for its callback or for the engine to forget it. -/
def Settled (r : BacktestRun σ) : Prop :=
  ∀ index last_index candle, r.pc ≠ .filled index last_index candle ∧
    r.pc ≠ .reported index last_index candle

end BacktestRun

/-! ## The start of the grid -/

/-- `update` comes to `place_initial_orders` on the candle: no order is open, or the price has
left the band. -/
def GridStrategy.Restarts (candle : Candle) (g : GridStrategy) : Prop :=
  match (g.index_.update candle.close_price).value with
  | none => False
  | some value => is_below 20 value = false ∧
      ((g.sell_order_.isNone ∧ g.buy_order_.isNone) ∨
        candle.close_price < g.baseline_price_ -
            g.baseline_price_ * g.grid_spacing_ * g.grid_count_ ∨
          g.baseline_price_ + g.baseline_price_ * g.grid_spacing_ * g.grid_count_ <
            candle.close_price)

instance (candle : Candle) (g : GridStrategy) : Decidable (g.Restarts candle) := by
  unfold GridStrategy.Restarts
  split <;> infer_instance

theorem mem_foldl_erase {slots : List OrderInfo} {m : Map OrderIndex OrderCall}
    {e : OrderIndex × OrderCall} :
    e ∈ slots.foldl (fun orders o => orders.erase o.index) m ↔
      e ∈ m ∧ ∀ o ∈ slots, e.1 ≠ o.index := by
  induction slots generalizing m with
  | nil => simp
  | cons o slots ih =>
    rw [List.foldl_cons, ih, Map.mem_erase, List.forall_mem_cons, and_assoc]

/-- When the slots agree with the map, nothing is left without the orders of the slots. -/
theorem GridStrategy.slots_erased {g : GridStrategy} {orders : Map OrderIndex OrderCall}
    (h : Coupled none g.slots orders) :
    (g.buy_order_.toList ++ g.sell_order_.toList).foldl
      (fun orders o => orders.erase o.index) orders = ∅ := by
  apply Map.ext
  apply List.eq_nil_iff_forall_not_mem.mpr
  intro e he
  obtain ⟨he, hne⟩ := mem_foldl_erase.mp he
  have hkey : e.1 ∈ orders.keys := Map.mem_keys.mpr ⟨e.2, he⟩
  rcases h.mem_keys_iff.mp hkey with hslot | hheld
  · obtain ⟨o, ho, hi⟩ := GridStrategy.mem_slot_indices.mp hslot
    refine hne o ?_ hi.symm
    rcases ho with ho | ho <;> simp [ho]
  · cases hheld

namespace GridStart

variable {p : GridStart}

/-- In a run of a new engine with the grid strategy, `update` comes to `place_initial_orders`,
and the account, the configuration and the price are those of `p`. The engine is in `s` behind
that `update`. -/
def Starts (p : GridStart) (s : BacktestRun GridStrategy) : Prop :=
  ∃ (account : Account) (commission : ℚ) (candles : List Candle) (volume : ℚ)
    (json : StrategyConfig) (n : List Unit) (r : BacktestRun GridStrategy) (candle : Candle),
    Run (BacktestRun.Step (grid_strategy id))
      (BacktestRun.start account commission candles (GridStrategy.start volume json)) n r ∧
    r.pc = .swept candle ∧ r.strategy.Restarts candle ∧
    r.context.account_ = p.account ∧ r.context.commission_ = p.commission ∧
    r.strategy.grid_count_ = p.grid_count ∧ r.strategy.grid_spacing_ = p.grid_spacing ∧
    candle.close_price = p.price ∧ r.step (grid_strategy id) = some s

/-- `update` is then `place_initial_orders` without an open order. -/
theorem update_restarts {g : GridStrategy} {c : BacktestContext} {candle : Candle}
    (h : Coupled none g.slots c.orders_) (hrestart : g.Restarts candle)
    (hcount : g.grid_count_ = p.grid_count) (hspacing : g.grid_spacing_ = p.grid_spacing)
    (hprice : candle.close_price = p.price) :
    run BacktestBroker (g.update candle) c =
      run BacktestBroker ((p.strategy { g with
        index_ := g.index_.update candle.close_price }).place_initial_orders p.price)
        { c with orders_ := ∅ } := by
  unfold GridStrategy.Restarts at hrestart
  rcases hvalue : (g.index_.update candle.close_price).value with _ | value
  · rw [hvalue] at hrestart
    exact hrestart.elim
  rw [hvalue] at hrestart
  obtain ⟨hbelow, hcase⟩ := hrestart
  unfold GridStrategy.update
  dsimp only
  rw [hvalue]
  dsimp only
  rw [hbelow, if_neg Bool.false_ne_true]
  have herased := GridStrategy.slots_erased h
  have hstart : p.strategy { g with index_ := g.index_.update candle.close_price } = { g with
      index_ := g.index_.update candle.close_price
      baseline_price_ := candle.close_price
      buy_order_ := none
      sell_order_ := none } := by
    rw [strategy, ← hcount, ← hspacing, ← hprice]
  rw [hstart, ← hprice]
  by_cases hnone : g.sell_order_.isNone ∧ g.buy_order_.isNone
  · -- No order is open, and there is nothing to cancel.
    have hb : g.buy_order_ = none := Option.isNone_iff_eq_none.mp hnone.2
    have hs : g.sell_order_ = none := Option.isNone_iff_eq_none.mp hnone.1
    rw [hb, hs] at herased
    have hempty : c.orders_ = ∅ := herased
    rw [if_pos hnone, ← hb, ← hempty]
    congr 3
    rw [hb, hs]
  · rw [if_neg hnone, if_pos (hcase.resolve_left hnone)]
    have hcancel := GridStrategy.cancel_all_orders_eq { g with
      index_ := g.index_.update candle.close_price
      baseline_price_ := candle.close_price } c
    rw [herased] at hcancel
    exact run_bind_ok BacktestBroker hcancel _

theorem walk_of_starts {s : BacktestRun GridStrategy} (h : p.Starts s) : p.Walk [] s := by
  obtain ⟨account, commission, candles, volume, json, n, r, candle, hrun, hpc, hrestart, haccount,
    hcommission, hcount, hspacing, hprice, hstep⟩ := h
  have hsound := BacktestRun.sound_run hrun
    (BacktestRun.sound_start account commission candles volume json)
  rw [BacktestRun.Sound, hpc] at hsound
  have hplace := place_initial_orders_eq p (c := { r.context with orders_ := ∅ })
    { r.strategy with index_ := r.strategy.index_.update candle.close_price } haccount
  rw [← update_restarts hsound.1.coupled hrestart hcount hspacing hprice] at hplace
  have hs : r.callback (r.strategy.update candle) .next = s := by
    unfold BacktestRun.step at hstep
    rw [hpc] at hstep
    exact Option.some.inj hstep
  rw [← hs, BacktestRun.callback_ok hplace]
  exact ⟨⟨hcommission, haccount⟩, _, ⟨rfl, rfl, rfl, rfl, rfl, rfl⟩, rfl, rfl⟩

/-! ## The prices of the fills -/

/-- The price of an open order is the price of the level that its fill leads to. -/
theorem fill_price_open {i : OrderIndex} {log : List OrderSide} {e : OrderIndex × OrderCall}
    (he : e ∈ p.open_orders i log) (candle : Candle) :
    e.2.fill_price candle = p.price_at (log ++ [e.2.side]).tail := by
  rcases log with _ | ⟨first, fills⟩
  · cases List.mem_singleton.mp he
    change p.initial_order.fill_price candle = p.price_at []
    rw [initial_fill_price, price_at_nil]
  · rcases List.mem_pair.mp he with rfl | rfl
    · exact (price_at_sell fills).symm
    · exact (price_at_buy fills).symm

/-- The walk over the levels, and the last fill at the price of the level. -/
def Trail (p : GridStart) (log : List (OrderSide × ℚ)) (r : BacktestRun GridStrategy) : Prop :=
  p.Walk (log.map Prod.fst) r ∧
    ∀ e, log.getLast? = some e → e.2 = p.price_at (log.map Prod.fst).tail

theorem trail_step {log : List (OrderSide × ℚ)} {r r' : BacktestRun GridStrategy} {a : Unit}
    (hstep : BacktestRun.GridStep r a r') (h : p.Trail log r) :
    p.Trail (log ++ r.trades a) r' := by
  obtain ⟨hwalk, hlast⟩ := h
  have hwalk' := walk_step hstep hwalk
  rw [← BacktestRun.sides_traded, ← List.map_append] at hwalk'
  refine ⟨hwalk', ?_⟩
  rcases hout : r.trades a with _ | ⟨e, rest⟩
  · rwa [List.append_nil]
  · have he : e ∈ r.trades a := hout ▸ List.mem_cons_self
    obtain ⟨k, last, candle, order, hpc, hfind, hone, rfl⟩ := BacktestRun.mem_trades he
    obtain ⟨_, hplace⟩ := hwalk
    rw [hpc] at hplace
    obtain ⟨i, hopen, _⟩ := hplace
    rw [← hout, hone]
    intro e' he'
    rw [List.getLast?_concat] at he'
    cases he'
    rw [List.map_append]
    exact fill_price_open (hopen.mem_orders hfind) candle

theorem trail_run {out : List (OrderSide × ℚ)} {s r : BacktestRun GridStrategy}
    (hrun : Emits BacktestRun.GridStep BacktestRun.trades s out r) (hs : p.Starts s) :
    p.Trail out r :=
  hrun.invariant (p := p.Trail) (l := []) (fun _ _ _ _ hstep h => trail_step hstep h)
    ⟨walk_of_starts hs, by simp⟩

/-- The account value at the price of the start. -/
def total_value (p : GridStart) : ℚ := p.account.balance + p.account.position * p.price

theorem volume_eq (p : GridStart) :
    p.volume = p.total_value / (2 * p.price * p.grid_count) := by
  unfold volume target_position total_value
  rw [div_div, div_div, mul_left_comm, mul_assoc]

theorem volume_count (p : GridStart) :
    p.volume * p.grid_count = p.total_value / (2 * p.price) := by
  rw [p.volume_mul_count, target_position, div_div, mul_comm p.price 2]
  rfl

theorem volume_count_price (p : GridStart) :
    p.volume * p.grid_count * p.price = p.total_value / 2 := by
  rw [p.volume_mul_count, p.target_mul_price]
  rfl

/-- The open orders around the price of the last fill, once the fills are settled. -/
theorem open_of_trail {log : List (OrderSide × ℚ)} {r : BacktestRun GridStrategy}
    (h : p.Trail log r) (hsettled : r.Settled) :
    ∃ i, r.context.orders_.entries = p.open_orders i (log.map Prod.fst) := by
  obtain ⟨⟨_, hplace⟩, _⟩ := h
  rcases hpc : r.pc with _ | ⟨it, last, candle⟩ | ⟨k, last, candle⟩ | ⟨k, last, candle⟩ |
    candle | fault <;> rw [hpc] at hplace
  · obtain ⟨i, hopen⟩ := hplace
    exact ⟨i, hopen.orders⟩
  · obtain ⟨i, hopen, _⟩ := hplace
    exact ⟨i, hopen.orders⟩
  · exact absurd hpc (hsettled k last candle).1
  · exact absurd hpc (hsettled k last candle).2
  · obtain ⟨i, hopen⟩ := hplace
    exact ⟨i, hopen.orders⟩
  · exact hplace.elim

/-- Without a commission, the account of the grid after the initial order and `n` more fills in
closed form, with the price of the last fill and the two orders that are open. -/
theorem the_grid_earns_in_closed_form (p : GridStart) (hc : p.commission = 0)
    {s r : BacktestRun GridStrategy} (hs : p.Starts s) {first : OrderSide × ℚ}
    {fills : List (OrderSide × ℚ)}
    (hrun : Emits BacktestRun.GridStep BacktestRun.trades s (first :: fills) r) :
    let volume := p.total_value / (2 * p.price * p.grid_count)
    let spacing := p.grid_spacing * p.price
    let l : ℚ := level (fills.map Prod.fst)
    let n : ℚ := fills.length
    r.context.account_.position = p.total_value / (2 * p.price) - l * volume ∧
      r.context.account_.balance =
        p.total_value / 2 + volume * (p.price * l + spacing * (l * l + n) / 2) ∧
      ((first :: fills).getLast (List.cons_ne_nil _ _)).2 = p.price + l * spacing ∧
      (r.Settled → ∃ i, r.context.orders_.entries =
        [(i, .limit_sell_order volume (p.price + (l + 1) * spacing)),
          (i + 1, .limit_buy_order volume (p.price + (l - 1) * spacing))]) := by
  intro volume spacing l n
  have htrail := trail_run hrun hs
  have haccount : p.Holds (fills.map Prod.fst) r.context.account_ := htrail.1.1.account
  have hvolume : volume = p.volume := p.volume_eq.symm
  have hprice : p.price_at (fills.map Prod.fst) = p.price + l * spacing := rfl
  refine ⟨?_, ?_, ?_, fun hsettled => ?_⟩
  · rw [haccount.position, position_at_eq p hc, hvolume, ← p.volume_count]
    ring
  · rw [haccount.balance hc, hvolume, ← p.volume_count_price, balance_at, List.length_map]
    change p.volume * (p.price * (p.grid_count + l) + spacing * (l ^ 2 + n) / 2) = _
    ring
  · rw [htrail.2 _ (List.getLast?_eq_some_getLast (List.cons_ne_nil _ _)), List.map_cons,
      List.tail_cons, hprice]
  · obtain ⟨i, horders⟩ := open_of_trail htrail hsettled
    refine ⟨i, horders.trans ?_⟩
    have hup : p.price_at (fills.map Prod.fst) + spacing = p.price + (l + 1) * spacing := by
      rw [hprice]
      ring
    have hdown : p.price_at (fills.map Prod.fst) - spacing = p.price + (l - 1) * spacing := by
      rw [hprice]
      ring
    rw [← hup, ← hdown, hvolume]
    rfl

end GridStart

/-! ## A run -/

instance (r : BacktestRun GridStrategy) (a : Unit) : Decidable (r.Calm a) :=
  match hpc : r.pc with
  | .swept candle =>
    match hu : r.strategy.update candle with
    | .ret g => .isTrue fun c hc => by
        rw [hpc] at hc
        cases hc
        exact ⟨g, hu⟩
    | .fail _ | .call _ _ => .isFalse fun h => by
        obtain ⟨g, hg⟩ := h candle hpc
        rw [hu] at hg
        cases hg
  | .next | .visit _ _ _ | .filled _ _ _ | .reported _ _ _ | .crashed _ => .isTrue fun c hc => by
      rw [hpc] at hc
      cases hc

/-- A grid of five levels around the price 200, with an indicator that has seen enough prices. -/
def five_levels_config : StrategyConfig where
  grid_count := 5
  grid_spacing := 1 / 100
  rsi_price := some ((List.range 21).map fun n => if n % 2 = 0 then 200 else 201)

def five_levels : GridStart where
  account := { balance := 1000, position := 0 }
  commission := 0
  grid_count := 5
  grid_spacing := 1 / 100
  price := 200
  count_pos := by norm_num
  price_pos := by norm_num
  off_target := by norm_num

/-- The candle of the rebalance, the one that fills the initial order, and one that reaches the
first level. -/
def climbing_candles : List Candle :=
  [flat_candle 200, flat_candle 200, { flat_candle 200 with high_price := 202 }]

def climbing_start : BacktestRun GridStrategy :=
  BacktestRun.start { balance := 1000, position := 0 } 0 climbing_candles
    (GridStrategy.start 0 five_levels_config)

/-- After the sell on the first level the account has earned half a spacing for the level and half
a spacing for the fill, with half a unit in each order. -/
theorem five_levels_earn_on_the_first_level :
    ∃ s r, five_levels.Starts s ∧
      Emits BacktestRun.GridStep BacktestRun.trades s [(.kBuy, 200), (.kSell, 202)] r ∧
      r.context.account_ = { balance := 601, position := 2 } ∧
      ∃ i, r.context.orders_.entries =
        [(i, .limit_sell_order (1 / 2) 204), (i + 1, .limit_buy_order (1 / 2) 200)] := by
  have hruns : ((runs.replay (fun r _ => r.step (grid_strategy id)) (fun _ _ => True)
      [(), ()] climbing_start).bind fun r => (r.step (grid_strategy id)).bind fun s =>
        (runs.replay_log (fun r _ => r.step (grid_strategy id)) BacktestRun.trades
          BacktestRun.Calm (List.replicate 12 ()) s).map fun x =>
            (decide (r.pc = .swept (flat_candle 200) ∧ r.strategy.Restarts (flat_candle 200) ∧
              r.context = climbing_start.context ∧ r.strategy.grid_count_ = 5 ∧
              r.strategy.grid_spacing_ = 1 / 100), x.1, x.2.pc)) =
      some (true, [(.kBuy, 200), (.kSell, 202)], .next) := by decide +kernel
  obtain ⟨r, hr, hrest⟩ := Option.bind_eq_some_iff.mp hruns
  obtain ⟨s, hs, hlog⟩ := Option.bind_eq_some_iff.mp hrest
  obtain ⟨⟨out, t⟩, ht, heq⟩ := Option.map_eq_some_iff.mp hlog
  simp only [Prod.mk.injEq, decide_eq_true_eq] at heq
  obtain ⟨⟨hpc, hrestart, hcontext, hcount, hspacing⟩, rfl, hnext⟩ := heq
  have hstarts : five_levels.Starts s :=
    ⟨_, _, _, _, _, _, r, flat_candle 200, (runs.run_of_replay (fun _ _ _ h => h) hr).forget, hpc,
      hrestart, by rw [hcontext]; rfl, by rw [hcontext]; rfl, hcount, hspacing, rfl, hs⟩
  have hemits : Emits BacktestRun.GridStep BacktestRun.trades s [(.kBuy, 200), (.kSell, 202)] t :=
    runs.emits_of_replay (fun _ _ _ h => h) ht
  obtain ⟨hposition, hbalance, _, horders⟩ :=
    five_levels.the_grid_earns_in_closed_form rfl hstarts hemits
  have hlevel : level [.kSell] = 1 := rfl
  simp only [five_levels, GridStart.total_value, List.map_cons, List.map_nil, hlevel,
    List.length_singleton] at hposition hbalance horders
  norm_num at hposition hbalance horders
  have hsettled : t.Settled := by
    intro index last candle
    simp [hnext]
  exact ⟨s, t, hstarts, hemits, by rw [← hposition, ← hbalance], horders hsettled⟩

end wedge
