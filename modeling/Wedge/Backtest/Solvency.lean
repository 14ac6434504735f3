-- The account of the old engine never goes below zero, whatever the strategy does
-- with sane orders, and an order that the account cannot pay for waits.
import Wedge.Backtest.Effects

namespace wedge

open programs containers runs

/-! ## Sane orders and candles -/

/-- The quantity is not negative, and neither is the limit price of a sell. -/
def OrderCall.Sane : OrderCall → Prop
  | .limit_buy_order quantity _ => 0 ≤ quantity
  | .limit_sell_order quantity price => 0 ≤ quantity ∧ 0 ≤ price
  | .market_buy_order quantity => 0 ≤ quantity
  | .market_sell_order quantity => 0 ≤ quantity

def BrokerCall.Sane : BrokerCall → Prop
  | .place order => order.Sane
  | .cancel _ => True
  | .account => True

def Candle.NonNegative (candle : Candle) : Prop :=
  0 ≤ candle.low_price ∧ 0 ≤ candle.close_price

namespace OrderCall

theorem Sane.quantity_nonneg {order : OrderCall} (h : order.Sane) : 0 ≤ order.quantity := by
  cases order with
  | limit_buy_order quantity price => exact h
  | limit_sell_order quantity price => exact h.1
  | market_buy_order quantity => exact h
  | market_sell_order quantity => exact h

/-- A limit buy can have a negative price, but no candle without negative prices meets it
then. -/
theorem Sane.fill_price_nonneg {order : OrderCall} {candle : Candle} (h : order.Sane)
    (hc : candle.NonNegative) (hm : order.meets candle = true) : 0 ≤ order.fill_price candle := by
  cases order with
  | limit_buy_order quantity price => exact hc.1.trans (of_decide_eq_true hm)
  | limit_sell_order quantity price => exact h.2
  | market_buy_order quantity => exact hc.2
  | market_sell_order quantity => exact hc.2

end OrderCall

/-! ## The account -/

namespace BacktestContext

structure Solvent (c : BacktestContext) : Prop where
  balance : 0 ≤ c.account_.balance
  position : 0 ≤ c.account_.position
  commission : 0 ≤ c.commission_ ∧ c.commission_ ≤ 1
  orders : ∀ e ∈ c.orders_, e.2.Sane

/-- A trade that the account can pay for leaves no debt. -/
theorem Solvent.paid {c : BacktestContext} (h : c.Solvent) {side : OrderSide}
    {quantity price : ℚ} (hq : 0 ≤ quantity) (hp : 0 ≤ price)
    (hf : c.Funds side quantity price) :
    Solvent { c with account_ := c.paid side quantity price } := by
  have hfee : 0 ≤ 1 - c.commission_ := by
    have := h.commission.2
    linarith
  cases side with
  | kBuy =>
    refine ⟨?_, ?_, h.commission, h.orders⟩
    · exact sub_nonneg.mpr hf
    · exact add_nonneg h.position (mul_nonneg hq hfee)
  | kSell =>
    refine ⟨?_, ?_, h.commission, h.orders⟩
    · exact add_nonneg h.balance (mul_nonneg (mul_nonneg hq hp) hfee)
    · exact sub_nonneg.mpr hf

theorem mem_add_order {c : BacktestContext} {order : OrderCall} {e : OrderIndex × OrderCall}
    (h : e ∈ (c.add_order order).2.orders_) :
    e = (c.last_order_index_, order) ∨ e ∈ c.orders_ := by
  by_cases hk : c.last_order_index_ ∈ c.orders_.keys
  · right
    simpa [add_order, Placement.emplace, hk] using h
  · exact (sorted.mem_emplace hk).mp h

theorem add_order_keeps (c : BacktestContext) (order : OrderCall) {e : OrderIndex × OrderCall}
    (h : e ∈ c.orders_) : e ∈ (c.add_order order).2.orders_ := by
  by_cases hk : c.last_order_index_ ∈ c.orders_.keys
  · simpa [add_order, Placement.emplace, hk] using h
  · exact (sorted.mem_emplace hk).mpr (Or.inr h)

/-- A sane call of the broker keeps the account as it is. -/
theorem Solvent.call {c : BacktestContext} (h : c.Solvent) {op : BrokerCall} (hop : op.Sane) :
    (BacktestBroker op c).2.Solvent := by
  cases op with
  | place order =>
    refine ⟨h.balance, h.position, h.commission, fun e he => ?_⟩
    rcases mem_add_order he with rfl | he
    · exact hop
    · exact h.orders e he
  | cancel index =>
    exact ⟨h.balance, h.position, h.commission, fun e he => h.orders e (Map.mem_erase.mp he).1⟩
  | account => exact h

end BacktestContext

/-! ## The runs -/

namespace BacktestRun

variable {σ : Type} {S : IStrategy σ}

/-- The next callback, if one is due, places sane orders only. -/
def PlacesSane (S : IStrategy σ) (r : BacktestRun σ) (_ : Unit) : Prop :=
  match r.pc with
  | .filled index _ _ =>
    Obeys BacktestBroker (fun op _ => op.Sane) (S.on_order_filled index r.strategy) r.context
  | .swept candle =>
    Obeys BacktestBroker (fun op _ => op.Sane) (S.update candle r.strategy) r.context
  | _ => True

/-- The next step neither takes the order out as an executed one nor cancels it. -/
def LeavesOrder (S : IStrategy σ) (k : OrderIndex) (r : BacktestRun σ) (_ : Unit) : Prop :=
  match r.pc with
  | .filled index _ _ => Obeys BacktestBroker (fun op _ => op ≠ .cancel k)
      (S.on_order_filled index r.strategy) r.context
  | .reported index _ _ => index ≠ k
  | .swept candle => Obeys BacktestBroker (fun op _ => op ≠ .cancel k)
      (S.update candle r.strategy) r.context
  | _ => True

/-- The candle of the traversal. -/
def candle? (r : BacktestRun σ) : Option Candle :=
  match r.pc with
  | .visit _ _ candle => some candle
  | .filled _ _ candle => some candle
  | .reported _ _ candle => some candle
  | _ => none

structure Solvent (r : BacktestRun σ) : Prop where
  context : r.context.Solvent
  to_come : ∀ candle ∈ r.data_loader, candle.NonNegative
  current : ∀ candle, r.candle? = some candle → candle.NonNegative

@[simp] theorem callback_context (p : StrategyProg σ) (pc : BacktestPc) (r : BacktestRun σ) :
    (r.callback p pc).context = (run BacktestBroker p r.context).2 := by
  unfold callback
  split <;> rename_i h <;> rw [h]

theorem callback_pc (p : StrategyProg σ) (pc : BacktestPc) (r : BacktestRun σ) :
    (r.callback p pc).pc = pc ∨ ∃ fault, (r.callback p pc).pc = .crashed fault := by
  unfold callback
  split
  · exact Or.inl rfl
  · exact Or.inr ⟨_, rfl⟩

theorem callback_candle {p : StrategyProg σ} {pc : BacktestPc} {r : BacktestRun σ}
    {candle : Candle} (h : (r.callback p pc).candle? = some candle) :
    candle? { r with pc := pc } = some candle := by
  unfold candle? at h
  rcases callback_pc p pc r with hpc | ⟨fault, hpc⟩ <;> rw [hpc] at h
  · exact h
  · cases h

theorem solvent_step {r r' : BacktestRun σ} (hstep : Where (Step S) (PlacesSane S) r () r')
    (h : r.Solvent) : r'.Solvent := by
  obtain ⟨hstep, hsane⟩ := hstep
  obtain ⟨hc, hnext, hcur⟩ := h
  unfold PlacesSane at hsane
  unfold candle? at hcur
  cases step_moves hstep with
  | @start candle rest hpc hd =>
    rw [hd] at hnext
    refine ⟨hc, fun x hx => hnext x (List.mem_cons_of_mem candle hx), fun x hx => ?_⟩
    cases hx
    exact hnext candle List.mem_cons_self
  | finish hpc => exact ⟨hc, hnext, fun x hx => by cases hx⟩
  | bound hpc hle => exact ⟨hc, hnext, fun x hx => by cases hx⟩
  | pass hpc hlt hfind hexec =>
    rw [hpc] at hcur
    exact ⟨hc, hnext, hcur⟩
  | @trade k last candle order hpc hlt hfind hexec =>
    rw [hpc] at hcur
    have ho := hc.orders _ (Map.mem_of_find hfind)
    exact ⟨hc.paid ho.quantity_nonneg (ho.fill_price_nonneg (hcur candle rfl) hexec.1) hexec.2,
      hnext, hcur⟩
  | lost hpc hmem => exact ⟨hc, hnext, fun x hx => by cases hx⟩
  | report hpc =>
    rw [hpc] at hsane hcur
    refine ⟨?_, by simpa using hnext, fun x hx => hcur x (callback_candle hx)⟩
    rw [callback_context]
    exact hsane.keeps (fun op c hop h => h.call hop) hc
  | forget hpc hmem =>
    rw [hpc] at hcur
    exact ⟨hc.call (show (BrokerCall.cancel _).Sane from trivial), hnext, hcur⟩
  | update hpc =>
    rw [hpc] at hsane
    refine ⟨?_, by simpa using hnext, fun x hx => by cases callback_candle hx⟩
    rw [callback_context]
    exact hsane.keeps (fun op c hop h => h.call hop) hc

/-! ## An order that cannot be paid for -/

/-- The traversal goes past it and changes nothing else. -/
theorem step_unfunded {r : BacktestRun σ} {k last : OrderIndex} {candle : Candle}
    {order : OrderCall} (hpc : r.pc = .visit (some k) last candle) (hlt : k < last)
    (hfind : r.context.orders_.find k = some order)
    (hf : ¬ r.context.Funds order.side order.quantity (order.fill_price candle)) :
    r.step S = some { r with pc := .visit (r.context.orders_.next k) last candle } :=
  (Move.pass hpc hlt hfind fun h => hf h.2).step

theorem callback_leaves {p : StrategyProg σ} {c : BacktestContext} {e : OrderIndex × OrderCall}
    (hob : Obeys BacktestBroker (fun op _ => op ≠ .cancel e.1) p c) (he : e ∈ c.orders_) :
    e ∈ (run BacktestBroker p c).2.orders_ := by
  refine hob.keeps (p := fun c => e ∈ c.orders_) (fun op c hop h => ?_) he
  cases op with
  | place order => exact c.add_order_keeps order h
  | cancel index =>
    refine Map.mem_erase.mpr ⟨h, fun heq => hop ?_⟩
    rw [heq]
  | account => exact h

theorem leaves_step {r r' : BacktestRun σ} {e : OrderIndex × OrderCall}
    (hstep : Where (Step S) (LeavesOrder S e.1) r () r') (he : e ∈ r.context.orders_) :
    e ∈ r'.context.orders_ := by
  obtain ⟨hstep, hleaves⟩ := hstep
  unfold LeavesOrder at hleaves
  cases step_moves hstep with
  | start hpc hd => exact he
  | finish hpc => exact he
  | bound hpc hle => exact he
  | pass hpc hlt hfind hexec => exact he
  | trade hpc hlt hfind hexec => exact he
  | lost hpc hmem => exact he
  | report hpc =>
    rw [hpc] at hleaves
    rw [callback_context]
    exact callback_leaves hleaves he
  | forget hpc hmem =>
    rw [hpc] at hleaves
    exact Map.mem_erase.mpr ⟨he, fun h => hleaves h.symm⟩
  | update hpc =>
    rw [hpc] at hleaves
    rw [callback_context]
    exact callback_leaves hleaves he

/-! ## The law -/

theorem solvent_run {r r' : BacktestRun σ} {n : List Unit}
    (hrun : Run (Where (Step S) (PlacesSane S)) r n r') (h : r.Solvent) : r'.Solvent :=
  hrun.invariant (fun _ _ _ hstep hs => solvent_step hstep hs) h

/-- In every state of a run with sane orders and candles neither account is negative. An order
that the account cannot pay for changes nothing, and it stays open until a later traversal
executes it or a callback cancels it. -/
theorem the_account_never_goes_below_zero (S : IStrategy σ) (account : Account) (commission : ℚ)
    (candles : List Candle) (strategy : σ) (hbalance : 0 ≤ account.balance)
    (hposition : 0 ≤ account.position) (hcommission : 0 ≤ commission ∧ commission ≤ 1)
    (hcandles : ∀ candle ∈ candles, candle.NonNegative) (n : List Unit) (r : BacktestRun σ)
    (hrun : Run (Where (Step S) (PlacesSane S)) (start account commission candles strategy) n r) :
    0 ≤ r.context.account_.balance ∧ 0 ≤ r.context.account_.position ∧
      (∀ k last candle order, r.pc = .visit (some k) last candle → k < last →
        r.context.orders_.find k = some order →
        ¬ r.context.Funds order.side order.quantity (order.fill_price candle) →
        r.step S = some { r with pc := .visit (r.context.orders_.next k) last candle }) ∧
      ∀ e ∈ r.context.orders_, ∀ m r', Run (Where (Step S) (LeavesOrder S e.1)) r m r' →
        e ∈ r'.context.orders_ := by
  have hstart : Solvent (start account commission candles strategy) := by
    refine ⟨⟨hbalance, hposition, hcommission, fun e he => ?_⟩, hcandles, fun c hc => ?_⟩
    · exact absurd he (Map.not_mem_empty e)
    · cases hc
  have h := (solvent_run hrun hstart).context
  refine ⟨h.balance, h.position, fun k last candle order hpc hlt hfind hf => ?_,
    fun e he m r' hm => ?_⟩
  · exact step_unfunded hpc hlt hfind hf
  · exact hm.invariant (p := fun t => e ∈ t.context.orders_)
      (fun _ _ _ hstep ht => leaves_step hstep ht) he

/-- A strategy that buys two units for each candle and offers three. -/
def eager_strategy : IStrategy Unit where
  update := fun _ s => do
    let _ ← Prog.ask (.place (.market_buy_order 2))
    let _ ← IBroker.limit_sell_order 3 110
    return s
  on_order_filled := fun _ s => .ret s

theorem eager_strategy_places_sane (r : BacktestRun Unit) (a : Unit) :
    PlacesSane eager_strategy r a := by
  unfold PlacesSane
  split
  · trivial
  · have hsell : OrderCall.Sane (.limit_sell_order 3 110) := ⟨by norm_num, by norm_num⟩
    have hbuy : OrderCall.Sane (.market_buy_order 2) := show (0 : ℚ) ≤ 2 by norm_num
    exact ⟨hbuy, fun _ _ _ => ⟨hsell, fun _ _ _ => trivial⟩⟩
  · trivial

/-- The buy is executed at 120, and the account then holds too little for the sell. -/
theorem an_eager_strategy_does_not_sell_what_it_does_not_hold :
    ∃ r : BacktestRun Unit, r.pc = .visit (some 1) 2 (flat_candle 120) ∧
      r.context.account_.balance = 60 ∧ 0 ≤ r.context.account_.position ∧
      r.step eager_strategy = some { r with pc := .visit none 2 (flat_candle 120) } := by
  have hrun : ((runs.replay (fun r _ => r.step eager_strategy) (fun _ _ => True)
      (List.replicate 7 ()) (BacktestRun.start { balance := 300, position := 0 } (1 / 1000)
        [flat_candle 100, flat_candle 120] ())).any fun r =>
        r.pc = .visit (some 1) 2 (flat_candle 120) ∧ r.context.account_.balance = 60 ∧
          r.context.orders_.find 1 = some (.limit_sell_order 3 110) ∧
          r.context.orders_.next 1 = none ∧ ¬ r.context.Funds .kSell 3 110) = true := by
    decide +kernel
  obtain ⟨r, hr, hfacts⟩ := (Option.any_eq_true _ _).mp hrun
  obtain ⟨hpc, hb, hfind, hnext, hf⟩ := of_decide_eq_true hfacts
  obtain ⟨_, hposition, hwaits, _⟩ := the_account_never_goes_below_zero eager_strategy
    { balance := 300, position := 0 } (1 / 1000) [flat_candle 100, flat_candle 120] ()
    (by norm_num) (by norm_num) (by norm_num) (by simp [Candle.NonNegative, flat_candle]) _ r
    ((runs.run_of_replay (fun _ _ _ h => h) hr).mono
      fun r a _ h => ⟨h.1, eager_strategy_places_sane r a⟩)
  refine ⟨r, hpc, hb, hposition, ?_⟩
  rw [hwaits 1 2 (flat_candle 120) _ hpc (by decide) hfind hf, hnext]

end BacktestRun

end wedge
