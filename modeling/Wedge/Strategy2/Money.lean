-- The money of the strategy. The engine takes its fee of a buy in base and its fee of
-- a sell in quote, and every bracket sells the whole unit that it bought. So each bracket
-- that is over has cost some base, whatever it has brought in quote.
import Wedge.Backtest2.Ledger
import Wedge.Strategy2.Intact

namespace wedge.strategy2

open backtest2 BacktestEngine

/-! ## What a bracket has brought -/

/-- The value for the state of a bracket, which is nothing when it has not bought. -/
def worth (open_worth stop_worth sold_worth : ℚ) (statuses : List (Option OrderStatus)) : ℚ :=
  if statuses = bought then open_worth
  else if statuses = stopped then stop_worth
  else if statuses = sold then sold_worth
  else 0

section worth

variable (a b c : ℚ)

@[simp] theorem worth_bought : worth a b c bought = a := if_pos rfl

@[simp] theorem worth_stopped : worth a b c stopped = b := by simp [worth, bought, stopped]

@[simp] theorem worth_sold : worth a b c sold = c := by simp [worth, bought, stopped, sold]

@[simp] theorem worth_waiting : worth a b c waiting = 0 := by
  simp [worth, waiting, bought, stopped, sold]

@[simp] theorem worth_gone : worth a b c gone = 0 := by
  simp [worth, gone, bought, stopped, sold]

end worth

/-- What a bracket with these statuses has brought to the base account. -/
def base_of : List (Option OrderStatus) → ℚ :=
  worth (1 - 1 / 10000) (-(1 / 10000)) (-(1 / 10000))

/-- What a bracket around the price has brought to the quote account. -/
def quote_of (limit_price : ℚ) : List (Option OrderStatus) → ℚ :=
  worth (-limit_price) (limit_price * ((1 - 5 / 10000) * (1 - 1 / 10000) - 1))
    (limit_price * ((1 + 5 / 10000) * (1 - 1 / 10000) - 1))

/-- The class and the side of an order, which never change. -/
def made (s : BacktestEngine) (id : ℕ) : Option (OrderClass × OrderSide) :=
  s.orders_[id]?.map fun o => (o.cls, o.side_)

/-- The price of an order, when it has one. -/
def price_of (s : BacktestEngine) (id : ℕ) : ℚ :=
  match made s id with
  | some (.LimitOrder price_ _, _) => price_
  | some (.StopLossOrder price_ _, _) => price_
  | _ => 0

/-- What list `k` has brought to the quote account, when every list has three orders. -/
def quote_at (s : BacktestEngine) (k : ℕ) : ℚ := quote_of (price_of s (3 * k)) (triple s k)

/-- The orders of list `k` are those of the bracket around its price. -/
structure Around (s : BacktestEngine) (k : ℕ) : Prop where
  working : made s (3 * k) = some (.LimitOrder (price_of s (3 * k)) 1, .kBuy)
  above : made s (3 * k + 1) =
    some (.StopLossOrder (price_of s (3 * k) * (1 - 5 / 10000)) 1, .kSell)
  below : made s (3 * k + 2) = some (.LimitOrder (price_of s (3 * k) * (1 + 5 / 10000)) 1, .kSell)

/-- The accounts hold their first values and what the brackets have brought. -/
structure Paid (base quote : ℚ) (s : BacktestEngine) : Prop where
  around : ∀ k < s.order_lists_.length, Around s k
  base_sum : s.base_ = base + ∑ k ∈ Finset.range s.order_lists_.length, base_of (triple s k)
  quote_sum : s.quote_ = quote + ∑ k ∈ Finset.range s.order_lists_.length, quote_at s k

theorem paid_init (base quote : ℚ) : Paid base quote (init base quote) := by
  refine ⟨fun k hk => absurd hk (Nat.not_lt_zero k), ?_, ?_⟩ <;> simp [init]

/-- Before its buy, and when it is canceled, a bracket has brought nothing. -/
theorem unfilled_brings_nothing {statuses : List (Option OrderStatus)}
    (h : statuses = waiting ∨ statuses = gone) :
    base_of statuses = 0 ∧ ∀ limit_price, quote_of limit_price statuses = 0 := by
  rcases h with rfl | rfl <;> simp [base_of, quote_of]

theorem price_of_made {s t : BacktestEngine} {id : ℕ} (h : made t id = made s id) :
    price_of t id = price_of s id := by
  unfold price_of
  rw [h]

theorem Around.of_made {s t : BacktestEngine} {k : ℕ} (h : Around s k)
    (hmade : ∀ r < 3, made t (3 * k + r) = made s (3 * k + r)) : Around t k := by
  have h0 : made t (3 * k) = made s (3 * k) := hmade 0 (by omega)
  obtain ⟨hworking, habove, hbelow⟩ := h
  refine ⟨?_, ?_, ?_⟩ <;> rw [price_of_made h0]
  · rw [h0]
    exact hworking
  · rw [hmade 1 (by omega)]
    exact habove
  · rw [hmade 2 (by omega)]
    exact hbelow

theorem made_restatus {s t : BacktestEngine} {f : ℕ → OrderStatus → OrderStatus}
    (h : t.orders_ = restatus f s.orders_) (id : ℕ) : made t id = made s id := by
  unfold made
  rw [h, restatus_get, Option.map_map]
  rfl

/-! ## One fill -/

/-- A sum in which one term changes. -/
theorem sum_range_of_one {f g : ℕ → ℚ} {n k : ℕ} (hk : k < n)
    (hother : ∀ j < n, j ≠ k → g j = f j) :
    ∑ j ∈ Finset.range n, g j = ∑ j ∈ Finset.range n, f j + (g k - f k) := by
  have hmem : k ∈ Finset.range n := Finset.mem_range.mpr hk
  rw [← Finset.add_sum_erase _ g hmem, ← Finset.add_sum_erase _ f hmem]
  have hrest : ∑ j ∈ (Finset.range n).erase k, g j = ∑ j ∈ (Finset.range n).erase k, f j := by
    apply Finset.sum_congr rfl
    intro j hj
    obtain ⟨hne, hj⟩ := Finset.mem_erase.mp hj
    exact hother j (Finset.mem_range.mp hj) hne
  rw [hrest]
  ring

section fill

variable {base quote : ℚ} {s : BacktestEngine} {id : ℕ} {o : OrderBase}

/-- A fill at the limit price of the bracket or at one of its two prices. -/
theorem fill_event_of_made {c : OrderClass} {side : OrderSide} {price : ℚ} (candle : Candle)
    (ho : made s id = some (o.cls, o.side_)) (hmade : made s id = some (c, side))
    (hc : c = .LimitOrder price 1 ∨ c = .StopLossOrder price 1) :
    o.fill_event candle = { side := side, base := 1, quote := price } := by
  rw [ho, Option.some.injEq, Prod.mk.injEq] at hmade
  obtain ⟨hcls, hside⟩ := hmade
  rcases hc with rfl | rfl <;>
    simp [OrderBase.fill_event, OrderBase.quantity, OrderBase.fill_price, hcls, hside]

/-- The money of a fill is what the bracket of the order has brought more. -/
theorem fill_pays (candle : Candle) (h : Brackets s) (haround : Around s (id / 3))
    (ho : s.orders_[id]? = some o) (hnew : s.status? id = some .kNew) :
    base_delta (o.fill_event candle) =
        base_of (triple (s.filled id o (o.fill_event candle)) (id / 3)) -
          base_of (triple s (id / 3)) ∧
      quote_delta (o.fill_event candle) =
        quote_at (s.filled id o (o.fill_event candle)) (id / 3) - quote_at s (id / 3) := by
  have hid : id = 3 * (id / 3) + id % 3 := (Nat.div_add_mod id 3).symm
  have hprice : price_of (s.filled id o (o.fill_event candle)) (3 * (id / 3)) =
      price_of s (3 * (id / 3)) := price_of_made (made_restatus rfl _)
  have hmade : made s (3 * (id / 3) + id % 3) = some (o.cls, o.side_) := by
    rw [← hid]
    simp [made, ho]
  obtain ⟨hworking, habove, hbelow⟩ := haround
  unfold quote_at
  rw [hprice]
  rcases h.fill_cases (o.fill_event candle) ho hnew with
    ⟨hr, h1, h2⟩ | ⟨hr, h1, h2⟩ | ⟨hr, h1, h2⟩ <;> rw [h1, h2] <;> rw [hr] at hmade
  · rw [fill_event_of_made candle hmade hworking (Or.inl rfl)]
    constructor <;> simp [base_delta, quote_delta, base_of, quote_of]
  · rw [fill_event_of_made candle hmade habove (Or.inr rfl)]
    constructor
    · simp only [base_delta, base_of, worth_bought, worth_stopped]
      ring
    · simp only [quote_delta, quote_of, worth_bought, worth_stopped]
      ring
  · rw [fill_event_of_made candle hmade hbelow (Or.inl rfl)]
    constructor
    · simp only [base_delta, base_of, worth_bought, worth_sold]
      ring
    · simp only [quote_delta, quote_of, worth_bought, worth_sold]
      ring

theorem paid_filled (candle : Candle) (h : Brackets s) (hpaid : Paid base quote s)
    (ho : s.orders_[id]? = some o) (hnew : s.status? id = some .kNew) :
    Paid base quote (s.filled id o (o.fill_event candle)) := by
  have hk : id / 3 < s.order_lists_.length := h.list_of_order ho
  have hmade : ∀ j, made (s.filled id o (o.fill_event candle)) j = made s j := made_restatus rfl
  have hother : ∀ j, j ≠ id / 3 → triple (s.filled id o (o.fill_event candle)) j = triple s j :=
    fun j hj => triple_filled_other _ h ho hj.symm
  obtain ⟨hbase, hquote⟩ := fill_pays candle h (hpaid.around _ hk) ho hnew
  refine ⟨fun k hk => (hpaid.around k hk).of_made fun r _ => hmade _, ?_, ?_⟩
  · have hsum := sum_range_of_one hk
      (f := fun k => base_of (triple s k))
      (g := fun k => base_of (triple (s.filled id o (o.fill_event candle)) k))
      fun j _ hj => by rw [hother j hj]
    change s.base_ + base_delta (o.fill_event candle) =
      base + ∑ k ∈ Finset.range s.order_lists_.length, _
    rw [hsum, hpaid.base_sum, hbase, add_assoc]
  · have hsum := sum_range_of_one hk (f := quote_at s)
      (g := quote_at (s.filled id o (o.fill_event candle)))
      fun j _ hj => by
        unfold quote_at
        rw [price_of_made (hmade _), hother j hj]
    change s.quote_ + quote_delta (o.fill_event candle) =
      quote + ∑ k ∈ Finset.range s.order_lists_.length, _
    rw [hsum, hpaid.quote_sum, hquote, add_assoc]

end fill

/-! ## One sweep -/

variable {base quote : ℚ} {s t : BacktestEngine}

/-- The accounts after a step that neither trades nor places an order. -/
theorem Paid.of_same (h : Paid base quote s) (hlists : t.order_lists_ = s.order_lists_)
    (hbase : t.base_ = s.base_) (hquote : t.quote_ = s.quote_)
    (hmade : ∀ id, made t id = made s id)
    (hbrought : ∀ k < s.order_lists_.length, base_of (triple t k) = base_of (triple s k) ∧
      ∀ limit_price, quote_of limit_price (triple t k) = quote_of limit_price (triple s k)) :
    Paid base quote t := by
  refine ⟨fun k hk => (h.around k (hlists ▸ hk)).of_made fun r _ => hmade _, ?_, ?_⟩
  · rw [hbase, hlists, h.base_sum]
    congr 1
    exact Finset.sum_congr rfl fun k hk => ((hbrought k (Finset.mem_range.mp hk)).1).symm
  · rw [hquote, hlists, h.quote_sum]
    congr 1
    apply Finset.sum_congr rfl
    intro k hk
    unfold quote_at
    rw [price_of_made (hmade _), (hbrought k (Finset.mem_range.mp hk)).2]

theorem paid_sweep {candle : Candle} {fuel : ℕ} {s' : BacktestEngine} (h : Brackets s)
    (hpaid : Paid base quote s) (hrun : s.update_new_orders fuel candle = some s') :
    Paid base quote s' := by
  obtain ⟨t, rfl, _, _, ht⟩ := sweep_of_fills (p := fun t => Brackets t ∧ Paid base quote t)
    (by
      rintro t id o _ ho hnew _ ⟨ht, hpaid⟩
      exact ⟨(brackets_filled _ ht ho hnew).1, paid_filled candle ht hpaid ho hnew⟩)
    h.sound ⟨h, hpaid⟩ hrun
  exact ht.of_same rfl rfl rfl (fun _ => rfl) fun _ _ => ⟨rfl, fun _ => rfl⟩

/-! ## One event -/

/-- A cancel of a bracket that has not bought costs nothing. -/
theorem paid_cancel {k : ℕ} (h : Brackets s) (hpaid : Paid base quote s)
    (hk : k < s.order_lists_.length) (hunfilled : triple s k = waiting ∨ triple s k = gone) :
    Paid base quote (s.execute (.CancelOrderList k)) := by
  obtain ⟨_, hlists, htriple⟩ := brackets_cancel h hk
  obtain ⟨_, hbase, hquote⟩ := execute_fills s (.CancelOrderList k)
  have he : s.execute (.CancelOrderList k) = s.canceled (s.order_lists_.getD k []) :=
    execute_cancel_order_list_eq k s
  apply hpaid.of_same hlists hbase hquote
  · rw [he]
    exact made_restatus rfl
  · intro j hj
    rw [htriple j hj]
    split
    · rename_i hjk
      obtain ⟨hb, hq⟩ := unfilled_brings_nothing hunfilled
      obtain ⟨hb', hq'⟩ := unfilled_brings_nothing (Or.inr rfl : gone = waiting ∨ gone = gone)
      rw [hjk, hb, hb']
      exact ⟨rfl, fun p => by rw [hq, hq']⟩
    · exact ⟨rfl, fun _ => rfl⟩

theorem paid_cancels (ks : List ℕ) (h : Brackets s) (hpaid : Paid base quote s)
    (hks : ∀ k ∈ ks, k < s.order_lists_.length)
    (hunfilled : ∀ k ∈ ks, triple s k = waiting ∨ triple s k = gone) :
    Paid base quote (ks.foldl (fun s k => s.execute (.CancelOrderList k)) s) := by
  induction ks generalizing s with
  | nil => exact hpaid
  | cons k ks ih =>
    have hk := hks k List.mem_cons_self
    obtain ⟨h1, hlists, htriple⟩ := brackets_cancel h hk
    refine ih h1 (paid_cancel h hpaid hk (hunfilled k List.mem_cons_self)) ?_ ?_
    · intro j hj
      rw [hlists]
      exact hks j (List.mem_cons_of_mem k hj)
    · intro j hj
      rw [htriple j (hks j (List.mem_cons_of_mem k hj))]
      split
      · exact Or.inr rfl
      · exact hunfilled j (List.mem_cons_of_mem k hj)

/-- The event cancels no bracket that has bought. -/
theorem dropped_unfilled {event : ScheduleTaskEvent} (h : Brackets s) (hr : Reports s event) :
    ∀ k ∈ dropped event, triple s k = waiting ∨ triple s k = gone := by
  intro k hk
  have hlt := dropped_lt hr k hk
  obtain ⟨list, hlist, rfl⟩ := List.mem_map.mp hk
  obtain ⟨hmem, hnew⟩ := List.mem_filter.mp hlist
  obtain ⟨ids, hids, he⟩ := hr list hmem
  rw [h.lists _ hlt] at hids
  cases hids
  have hstate := h.state _ hlt
  generalize list.order_list_id = k at *
  rw [he] at hnew
  -- The other three states have a filled buy, which the report tells.
  have hbuy : s.status? (3 * k) ≠ some .kFilled := by
    intro hfilled
    simp [report, Strategy001.is_new_order, hfilled] at hnew
  simp only [states, triple, waiting, gone, bought, stopped, sold, List.mem_cons,
    List.not_mem_nil, or_false, List.cons.injEq] at hstate ⊢
  rcases hstate with hs | hs | hs | hs | hs
  · exact Or.inl hs
  · exact Or.inr hs
  · exact absurd hs.1 hbuy
  · exact absurd hs.1 hbuy
  · exact absurd hs.1 hbuy

theorem made_placed_old {batch : List OrderBase} {lists : List (List ℕ)} {id : ℕ}
    (hid : id < s.orders_.length) : made (s.placed batch lists) id = made s id := by
  unfold made
  rw [placed_get_old s batch lists hid]

/-- A new bracket costs nothing. -/
theorem paid_place {limit_price : ℚ} (h : Brackets s) (hpaid : Paid base quote s)
    (ht : t = s.execute (.NewOrderList (Strategy001.bracket limit_price))) :
    Paid base quote t := by
  obtain ⟨_, hlength, hold, hnew⟩ := brackets_place h ht
  obtain ⟨_, hbase, hquote⟩ := execute_fills s (.NewOrderList (Strategy001.bracket limit_price))
  rw [← ht] at hbase hquote
  have hlen := h.length
  have he : t = s.placed (list_batch s.orders_.length (Strategy001.bracket limit_price))
      [list_ids s.orders_.length (Strategy001.bracket limit_price)] :=
    ht.trans (execute_list_eq _ s)
  have hmade : ∀ k < s.order_lists_.length, ∀ r < 3, made t (3 * k + r) = made s (3 * k + r) := by
    intro k hk r hr
    rw [he]
    exact made_placed_old (by omega)
  have hget := execute_list_get s (Strategy001.bracket limit_price)
  rw [← ht, hlen] at hget
  have h0 := hget 0
  have h1 := hget 1
  have h2 := hget 2
  simp only [list_batch, Strategy001.bracket, Nat.add_zero, List.getElem?_cons_zero,
    List.getElem?_cons_succ] at h0 h1 h2
  have hprice : price_of t (3 * s.order_lists_.length) = limit_price := by
    simp [price_of, made, h0, make_order]
  obtain ⟨hb, hq⟩ := unfilled_brings_nothing (Or.inl hnew)
  refine ⟨fun k hk => ?_, ?_, ?_⟩
  · rcases Nat.lt_succ_iff_lt_or_eq.mp (hlength ▸ hk) with hk | rfl
    · exact (hpaid.around k hk).of_made (hmade k hk)
    · refine ⟨?_, ?_, ?_⟩ <;> rw [hprice] <;> simp [made, h0, h1, h2, make_order]
  · rw [hbase, hlength, Finset.sum_range_succ, hb, add_zero, hpaid.base_sum]
    congr 1
    exact Finset.sum_congr rfl fun k hk => by rw [hold k (Finset.mem_range.mp hk)]
  · rw [hquote, hlength, Finset.sum_range_succ, quote_at, hq, add_zero, hpaid.quote_sum]
    congr 1
    apply Finset.sum_congr rfl
    intro k hk
    have hk := Finset.mem_range.mp hk
    unfold quote_at
    have hsame : price_of t (3 * k) = price_of s (3 * k) :=
      price_of_made (hmade k hk 0 (by omega))
    rw [hold k hk, hsame]

/-! ## The runs -/

namespace Trading

theorem paid_step {s s' : Trading} {a : TradingAction} (hstep : Step s a s')
    (h : Brackets s.engine) (hpaid : Paid base quote s.engine) : Paid base quote s'.engine := by
  cases hstep with
  | candle hrun => exact paid_sweep h hpaid hrun
  | @event event hr =>
    obtain ⟨limit_price, he⟩ := on_event_engine event s
    obtain ⟨h1, _⟩ := brackets_cancels (dropped event) h (dropped_lt hr)
    exact paid_place h1 (paid_cancels _ h hpaid (dropped_lt hr) (dropped_unfilled h hr)) he

theorem paid_run {acts : List TradingAction} {s : Trading}
    (h : runs.Run Step (start base quote) acts s) : Paid base quote s.engine :=
  (h.invariant (p := fun t => Brackets t.engine ∧ Paid base quote t.engine)
    (fun _ _ _ hstep ht => ⟨brackets_step hstep ht.1, paid_step hstep ht.1 ht.2⟩)
    ⟨brackets_init base quote, paid_init base quote⟩).2

end Trading

/-! ## The money -/

/-- The limit prices of the brackets in the state. -/
def prices (s : BacktestEngine) (statuses : List (Option OrderStatus)) : List ℚ :=
  (s.order_lists_.filter fun ids => ids.map s.status? = statuses).map fun ids =>
    price_of s (ids.headD 0)

/-- A sum over all brackets is one sum for each state with a value. -/
theorem sum_worth {α : Type*} (l : List α) (statuses : α → List (Option OrderStatus))
    (a b c : α → ℚ) :
    (l.map fun x => worth (a x) (b x) (c x) (statuses x)).sum =
      ((l.filter fun x => statuses x = bought).map a).sum +
        ((l.filter fun x => statuses x = stopped).map b).sum +
        ((l.filter fun x => statuses x = sold).map c).sum := by
  induction l with
  | nil => simp
  | cons x l ih =>
    rw [List.map_cons, List.sum_cons, ih]
    have h12 : bought ≠ stopped := by decide
    have h13 : bought ≠ sold := by decide
    have h23 : stopped ≠ sold := by decide
    by_cases h1 : statuses x = bought
    · simp [h1, h12, h13]
      ring
    · by_cases h2 : statuses x = stopped
      · simp [h2, h12.symm, h23]
        ring
      · by_cases h3 : statuses x = sold
        · simp [h3, h13.symm, h23.symm]
          ring
        · simp [worth, h1, h2, h3]

/-- The lists by their numbers. -/
theorem sum_lists (h : Brackets s) (f : List ℕ → ℚ) :
    ∑ k ∈ Finset.range s.order_lists_.length, f [3 * k, 3 * k + 1, 3 * k + 2] =
      (s.order_lists_.map f).sum := by
  have hlists : s.order_lists_ =
      (List.range s.order_lists_.length).map fun k => [3 * k, 3 * k + 1, 3 * k + 2] := by
    apply List.ext_getElem?
    intro k
    by_cases hk : k < s.order_lists_.length
    · rw [h.lists k hk]
      simp [hk]
    · rw [List.getElem?_eq_none (by omega), List.getElem?_eq_none (by simp; omega)]
  conv_rhs => rw [hlists, List.map_map]
  rfl

/-- In every run of the strategy and the engine, the accounts tell what its brackets have done.
An open bracket has paid its limit price for a unit less the fee. A bracket that is over has brought
the difference of its prices less the fee, and has cost the fee of the buy in base, since it sold
the whole unit. -/
theorem the_brackets_account_for_the_money (base quote : ℚ) (acts : List TradingAction)
    (s : Trading) (h : runs.Run Trading.Step (Trading.start base quote) acts s) :
    s.engine.base_ = base + (1 - 1 / 10000) * (prices s.engine bought).length -
        1 / 10000 * ((prices s.engine stopped).length + (prices s.engine sold).length) ∧
      s.engine.quote_ = quote - (prices s.engine bought).sum +
        ((1 - 5 / 10000) * (1 - 1 / 10000) - 1) * (prices s.engine stopped).sum +
        ((1 + 5 / 10000) * (1 - 1 / 10000) - 1) * (prices s.engine sold).sum := by
  have hb := Trading.brackets_run h
  have hpaid := Trading.paid_run h
  constructor
  · have hsum : ∑ k ∈ Finset.range s.engine.order_lists_.length, base_of (triple s.engine k) = _ :=
      (sum_lists hb fun ids => base_of (ids.map s.engine.status?)).trans (sum_worth _ _ _ _ _)
    rw [hpaid.base_sum, hsum]
    simp only [prices, List.length_map, List.map_const', List.sum_replicate, nsmul_eq_mul]
    ring
  · have hsum : ∑ k ∈ Finset.range s.engine.order_lists_.length, quote_at s.engine k = _ :=
      (sum_lists hb fun ids => quote_of (price_of s.engine (ids.headD 0))
        (ids.map s.engine.status?)).trans (sum_worth _ _ _ _ _)
    have hneg := List.sum_neg (prices s.engine bought)
    simp only [prices, List.map_map, Function.comp_def] at hneg ⊢
    rw [hpaid.quote_sum, hsum, ← hneg]
    simp only [List.sum_map_mul_right]
    ring

/-- The first bracket is bought at 90 and stopped, and the second one waits. -/
theorem a_stopped_bracket_costs_base_and_quote :
    ∃ s, (∃ acts, runs.Run Trading.Step (Trading.start 0 1000) acts s) ∧
      prices s.engine bought = [] ∧ prices s.engine stopped = [90] ∧
      s.engine.base_ = -(1 / 10000) ∧ s.engine.quote_ = 1000 - 107991 / 2000000 := by
  have h : ((Trading.event_and_sweep 100 89.98 (Trading.start 0 1000)).bind
      (Trading.event_and_sweep 89.98 89)).any (fun s => prices s.engine bought = [] ∧
        prices s.engine stopped = [90] ∧ prices s.engine sold = []) = true := by decide +kernel
  obtain ⟨s2, hs, hfacts⟩ := (Option.any_eq_true _ _).mp h
  obtain ⟨hbought, hstopped, hsold⟩ := of_decide_eq_true hfacts
  obtain ⟨s1, h1, h2⟩ := Option.bind_eq_some_iff.mp hs
  have hrun := ((Trading.run_event_and_sweep h1).append (Trading.run_event_and_sweep h2)).forget
  obtain ⟨hbase, hquote⟩ := the_brackets_account_for_the_money 0 1000 _ s2 hrun
  rw [hbought, hstopped, hsold] at hbase hquote
  refine ⟨s2, ⟨_, hrun⟩, hbought, hstopped, ?_, ?_⟩
  · rw [hbase]
    norm_num
  · rw [hquote]
    norm_num

end wedge.strategy2
