-- The units of price and size. When all prices are told in another currency and all
-- sizes in other lots, the engine does the same, with its amounts in the new units.
import Wedge.Backtest2.Effects

namespace wedge

/-- What one old unit is in new ones: of the price, and of the size. -/
structure Units where
  price : ℚ
  size : ℚ
  price_pos : 0 < price

def Candle.scaled (u : Units) (candle : Candle) : Candle where
  open_time := candle.open_time
  close_time := candle.close_time
  open_price := candle.open_price * u.price
  close_price := candle.close_price * u.price
  high_price := candle.high_price * u.price
  low_price := candle.low_price * u.price
  volume := candle.volume * u.size
  quote_volume := candle.quote_volume * (u.size * u.price)
  traders := candle.traders
  taker_buy_base := candle.taker_buy_base * u.size
  taker_buy_quote := candle.taker_buy_quote * (u.size * u.price)

namespace backtest2

/-! ## The same things in other units -/

def NewOrder.scaled (u : Units) : NewOrder → NewOrder
  | .NewLimitOrder side price quantity => .NewLimitOrder side (price * u.price) (quantity * u.size)
  | .NewMarketOrder side quantity => .NewMarketOrder side (quantity * u.size)
  | .NewStopLossOrder side price quantity =>
    .NewStopLossOrder side (price * u.price) (quantity * u.size)

def NewOrderList.scaled (u : Units) : NewOrderList → NewOrderList
  | .NewOtoOrderList working pending => .NewOtoOrderList (working.scaled u) (pending.scaled u)
  | .NewOcoOrderList above below => .NewOcoOrderList (above.scaled u) (below.scaled u)
  | .NewOtocoOrderList working pending_above pending_below =>
    .NewOtocoOrderList (working.scaled u) (pending_above.scaled u) (pending_below.scaled u)

def Command.scaled (u : Units) : Command → Command
  | .CancelOrder order_id => .CancelOrder order_id
  | .CancelOrderList order_list_id => .CancelOrderList order_list_id
  | .NewOrder order => .NewOrder (order.scaled u)
  | .NewOrderList list => .NewOrderList (list.scaled u)

def FillOrderEvent.scaled (u : Units) (event : FillOrderEvent) : FillOrderEvent where
  side := event.side
  base := event.base * u.size
  quote := event.quote * (u.size * u.price)

def OrderEvent.scaled (u : Units) : OrderEvent → OrderEvent
  | .fill event => .fill (event.scaled u)
  | .trigger orders => .trigger orders
  | .cancel orders => .cancel orders

def OrderClass.scaled (u : Units) : OrderClass → OrderClass
  | .LimitOrder price_ quantity_ => .LimitOrder (price_ * u.price) (quantity_ * u.size)
  | .MarketOrder quantity_ => .MarketOrder (quantity_ * u.size)
  | .StopLossOrder price_ quantity_ => .StopLossOrder (price_ * u.price) (quantity_ * u.size)

def OrderBase.scaled (u : Units) (o : OrderBase) : OrderBase := { o with cls := o.cls.scaled u }

namespace BacktestEngine

def scaled (u : Units) (s : BacktestEngine) : BacktestEngine where
  base_ := s.base_ * u.size
  quote_ := s.quote_ * (u.size * u.price)
  new_orders_ := s.new_orders_
  order_lists_ := s.order_lists_
  orders_ := s.orders_.map (OrderBase.scaled u)
  heard := s.heard.map fun x => (x.1, x.2.scaled u)
  failed := s.failed

def Action.scaled (u : Units) : Action → Action
  | .command c => .command (c.scaled u)
  | .candle c => .candle (c.scaled u)

end BacktestEngine

/-! ## One order -/

section order

variable (u : Units) (o : OrderBase)

/-- A price is on the same side of another one in both units. -/
theorem scaled_le (p q : ℚ) : p * u.price ≤ q * u.price ↔ p ≤ q :=
  mul_le_mul_iff_left₀ u.price_pos

theorem OrderBase.scaled_meets (candle : Candle) :
    (o.scaled u).meets (candle.scaled u) = o.meets candle := by
  obtain ⟨cls, side, status, triggered, canceled⟩ := o
  rcases cls with ⟨p, q⟩ | q | ⟨p, q⟩ <;> cases side <;>
    simp [meets, scaled, OrderClass.scaled, Candle.scaled, scaled_le]

theorem OrderBase.scaled_fill_event (candle : Candle) :
    (o.scaled u).fill_event (candle.scaled u) = (o.fill_event candle).scaled u := by
  obtain ⟨cls, side, status, triggered, canceled⟩ := o
  rcases cls with ⟨p, q⟩ | q | ⟨p, q⟩ <;>
    simp only [fill_event, quantity, fill_price, scaled, OrderClass.scaled, Candle.scaled,
      FillOrderEvent.scaled, mul_mul_mul_comm]

theorem OrderBase.scaled_update (candle : Candle) :
    (o.scaled u).update (candle.scaled u) = (o.update candle).map (FillOrderEvent.scaled u) := by
  rw [update_eq, update_eq, scaled_meets, scaled_fill_event]
  split <;> rfl

end order

/-! ## The engine -/

namespace BacktestEngine

section engine

variable (u : Units) (s : BacktestEngine)

theorem scaled_is_status (id : ℕ) (status : OrderStatus) :
    (s.scaled u).is_status id status = s.is_status id status := by
  simp only [is_status, scaled, List.getElem?_map]
  cases s.orders_[id]? <;> rfl

/-- A change of an order that the units do not touch. -/
theorem scaled_modify (f : OrderBase → OrderBase) (hf : ∀ o, f (o.scaled u) = (f o).scaled u)
    (id : ℕ) : (s.orders_.map (OrderBase.scaled u)).modify id f =
      (s.orders_.modify id f).map (OrderBase.scaled u) := by
  apply List.ext_getElem?
  intro j
  simp only [List.getElem?_modify, List.getElem?_map]
  cases s.orders_[j]? with
  | none => rfl
  | some o =>
    simp only [Option.map_some]
    split
    · exact congrArg some (hf o)
    · rfl

theorem scaled_write_status (status : OrderStatus) (id : ℕ) :
    (s.scaled u).write_status status id = (s.write_status status id).scaled u := by
  have horders := scaled_modify u s (fun o => { o with status_ := status }) (fun _ => rfl) id
  simp only [write_status, scaled, horders]

theorem scaled_trigger_order (id : ℕ) :
    (s.scaled u).trigger_order id = (s.trigger_order id).scaled u := by
  unfold trigger_order
  simp only [scaled_is_status]
  split
  · rw [scaled_write_status]
    rfl
  · have hfailed : { s.scaled u with failed := (s.scaled u).failed ++ [id] } =
        scaled u { s with failed := s.failed ++ [id] } := rfl
    rw [hfailed, scaled_write_status]
    rfl

theorem scaled_on_fill (event : FillOrderEvent) :
    (s.scaled u).on_fill (event.scaled u) = (s.on_fill event).scaled u := by
  obtain ⟨side, base, quote⟩ := event
  cases side <;>
  · simp only [on_fill, scaled, FillOrderEvent.scaled, BacktestEngine.mk.injEq, and_true]
    constructor <;> ring

/-- A loop over orders, each turn of which respects the units. -/
theorem scaled_foldl {α : Type} (f g : BacktestEngine → α → BacktestEngine)
    (hf : ∀ s x, g (s.scaled u) x = (f s x).scaled u) (l : List α) :
    l.foldl g (s.scaled u) = (l.foldl f s).scaled u := by
  induction l generalizing s with
  | nil => rfl
  | cons x l ih => rw [List.foldl_cons, List.foldl_cons, hf, ih]

theorem scaled_on_event (sender : ℕ) (event : OrderEvent) :
    (s.scaled u).on_event sender (event.scaled u) = (s.on_event sender event).scaled u := by
  have hheard : { s.scaled u with heard := (s.scaled u).heard ++ [(sender, event.scaled u)] } =
      scaled u { s with heard := s.heard ++ [(sender, event)] } := by
    simp [scaled]
  unfold on_event
  rw [hheard]
  cases event with
  | fill event => exact scaled_on_fill u _ event
  | trigger orders => exact scaled_foldl u _ _ _ (fun s id => scaled_trigger_order u s id) orders
  | cancel orders =>
    exact scaled_foldl u _ _ _ (fun s id => scaled_write_status u s .kCanceled id) orders

theorem scaled_status (status : OrderStatus) (id : ℕ) :
    (s.scaled u).status status id = (s.status status id).scaled u := by
  unfold BacktestEngine.status
  dsimp only
  rw [scaled_write_status]
  split
  · rfl
  · generalize s.write_status status id = t
    have hget : (t.scaled u).orders_[id]? = t.orders_[id]?.map (OrderBase.scaled u) :=
      List.getElem?_map
    rw [hget]
    rcases t.orders_[id]? with _ | o
    · rfl
    · have htrigger : (t.scaled u).on_event id (.trigger o.triggered_) =
          (t.on_event id (.trigger o.triggered_)).scaled u :=
        scaled_on_event u t id (.trigger o.triggered_)
      have hcancel : ∀ t : BacktestEngine, (t.scaled u).on_event id (.cancel o.canceled_) =
          (t.on_event id (.cancel o.canceled_)).scaled u :=
        fun t => scaled_on_event u t id (.cancel o.canceled_)
      simp only [Option.map_some, OrderBase.scaled, htrigger]
      split_ifs <;> first | rfl | exact hcancel _

/-! ## The sweep -/

theorem scaled_update_order (candle : Candle) (id : ℕ) :
    (s.scaled u).update_order (candle.scaled u) id = (s.update_order candle id).scaled u := by
  have hget : (s.scaled u).orders_[id]? = s.orders_[id]?.map (OrderBase.scaled u) :=
    List.getElem?_map
  unfold update_order
  rw [hget]
  rcases s.orders_[id]? with _ | o
  · rfl
  · have hnew : (o.scaled u).is_status .kNew = o.is_status .kNew := rfl
    simp only [Option.map_some, hnew, OrderBase.scaled_update, List.foldl_map]
    split
    · refine scaled_foldl u s _ _ (fun s event => ?_) _
      have hfill : (s.scaled u).on_event id (.fill (event.scaled u)) =
          (s.on_event id (.fill event)).scaled u := scaled_on_event u s id (.fill event)
      rw [hfill, scaled_status]
    · rfl

theorem scaled_remove_stale : (s.scaled u).remove_stale = s.remove_stale.scaled u := by
  simp only [remove_stale, scaled_is_status]
  rfl

theorem scaled_update_new_orders (fuel : ℕ) (candle : Candle) :
    (s.scaled u).update_new_orders fuel (candle.scaled u) =
      (s.update_new_orders fuel candle).map (scaled u) := by
  unfold update_new_orders
  rw [worklist.walk_map (scaled u) (fun _ => rfl)
    (fun id s => scaled_update_order u s candle id) fuel 0 s, Option.map_map, Option.map_map]
  congr 1
  funext t
  exact scaled_remove_stale u t

/-! ## The commands -/

theorem scaled_make_order (status : OrderStatus) (order : NewOrder) :
    make_order status (order.scaled u) = (make_order status order).scaled u := by
  cases order <;> rfl

theorem scaled_list_batch (n : ℕ) (list : NewOrderList) :
    list_batch n (list.scaled u) = (list_batch n list).map (OrderBase.scaled u) := by
  cases list <;> simp only [list_batch, NewOrderList.scaled, scaled_make_order] <;> rfl

theorem scaled_placed (batch : List OrderBase) (lists : List (List ℕ)) :
    (s.scaled u).placed (batch.map (OrderBase.scaled u)) lists = (s.placed batch lists).scaled u := by
  simp [placed, scaled]

theorem scaled_execute (c : Command) :
    (s.scaled u).execute (c.scaled u) = (s.execute c).scaled u := by
  have hlength : (s.scaled u).orders_.length = s.orders_.length := List.length_map ..
  cases c with
  | CancelOrder id => exact scaled_status u s .kCanceled id
  | CancelOrderList id =>
    exact scaled_foldl u s _ _ (fun s id => scaled_status u s .kCanceled id) _
  | NewOrder order =>
    have hplaced := scaled_placed u s [make_order .kNew order] []
    simp only [execute, Command.scaled, execute_new_order_eq, scaled_make_order]
    exact hplaced
  | NewOrderList list =>
    have hids : list_ids s.orders_.length (list.scaled u) = list_ids s.orders_.length list := by
      cases list <;> rfl
    simp only [execute, Command.scaled, execute_new_order_list_eq, hlength, scaled_list_batch, hids]
    exact scaled_placed u s _ _

theorem scaled_known (c : Command) : (s.scaled u).Known (c.scaled u) ↔ s.Known c := by
  have hlength : (s.scaled u).orders_.length = s.orders_.length := List.length_map ..
  cases c with
  | CancelOrder id => exact iff_of_eq (congrArg (id < ·) hlength)
  | _ => exact Iff.rfl

theorem scaled_status? (id : ℕ) : (s.scaled u).status? id = s.status? id := by
  simp only [status?, scaled, List.getElem?_map, Option.map_map]
  rfl

end engine

/-! ## The runs -/

variable {u : Units} {s s' : BacktestEngine}

theorem Step.in_units {a : Action} (h : Step s a s') :
    Step (s.scaled u) (a.scaled u) (s'.scaled u) := by
  cases h with
  | @command c hknown =>
    rw [← scaled_execute]
    exact .command ((scaled_known u s c).mpr hknown)
  | @candle _ candle fuel hrun =>
    have hscaled := scaled_update_new_orders u s fuel candle
    rw [hrun] at hscaled
    exact .candle hscaled

theorem Run.in_units {acts : List Action} (h : Run s acts s') :
    Run (s.scaled u) (acts.map (Action.scaled u)) (s'.scaled u) := by
  induction h with
  | nil => exact .nil _
  | cons hstep _ ih => exact .cons hstep.in_units ih

/-- A run of commands and candles goes the same way in all units of price and size: with each
price and each size told in the new units, every order has the same status, and the two amounts are
the old ones in the new units. -/
theorem a_run_is_the_same_in_all_units (u : Units) (base quote : ℚ) (acts : List Action)
    (s : BacktestEngine) (h : Run (init base quote) acts s) :
    ∃ s', Run (init (base * u.size) (quote * (u.size * u.price))) (acts.map (Action.scaled u)) s' ∧
      (∀ id, s'.status? id = s.status? id) ∧ s'.new_orders_ = s.new_orders_ ∧
      s'.base_ = s.base_ * u.size ∧ s'.quote_ = s.quote_ * (u.size * u.price) :=
  ⟨s.scaled u, h.in_units, scaled_status? u s, rfl, rfl, rfl⟩

/-- A price in halves of the old unit and a size in thirds. -/
def small_units : Units := { price := 2, size := 3, price_pos := by norm_num }

def one_bracket : NewOrderList :=
  .NewOtocoOrderList (.NewMarketOrder .kBuy 1) (.NewStopLossOrder .kSell 90 1)
    (.NewLimitOrder .kSell 110 1)

/-- A bracket of which the limit sell is filled. -/
theorem a_sold_bracket_is_sold_in_small_units :
    ∃ s s', Run (init 0 1000) [.command (.NewOrderList one_bracket), .candle (flat_candle 120)] s ∧
      [0, 1, 2].map s.status? = [some .kFilled, some .kCanceled, some .kFilled] ∧
      Run (init (0 * 3) (1000 * (3 * 2))) ([.command (.NewOrderList one_bracket),
        .candle (flat_candle 120)].map (Action.scaled small_units)) s' ∧
      ∀ id, s'.status? id = s.status? id := by
  have hsweep : (((init 0 1000).execute (.NewOrderList one_bracket)).update_new_orders 9
      (flat_candle 120)).any (fun s =>
        [0, 1, 2].map s.status? = [some .kFilled, some .kCanceled, some .kFilled]) = true := by
    decide +kernel
  obtain ⟨s, hs, hsold⟩ := (Option.any_eq_true _ _).mp hsweep
  have hrun : Run (init 0 1000) [.command (.NewOrderList one_bracket), .candle (flat_candle 120)]
      s := .cons (.command trivial) (.single (.candle hs))
  obtain ⟨s', hrun', hstatus, _⟩ := a_run_is_the_same_in_all_units small_units 0 1000 _ s hrun
  exact ⟨s, s', hrun, of_decide_eq_true hsold, hrun', hstatus⟩

end BacktestEngine

end backtest2

end wedge
