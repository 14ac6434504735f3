-- The length of the candles. Orders that only wait for a price are filled alike on many
-- short candles and on the one candle that `merge` makes of them.
import Wedge.Backtest.Merge
import Wedge.Backtest2.Sweep

namespace wedge

theorem foldl_min_le {first p : ℚ} {rest : List ℚ} :
    rest.foldl min first ≤ p ↔ ∃ x ∈ first :: rest, x ≤ p := by
  induction rest generalizing first with
  | nil => simp
  | cons x rest ih => simp [ih, or_assoc]

theorem le_foldl_max {first p : ℚ} {rest : List ℚ} :
    p ≤ rest.foldl max first ↔ ∃ x ∈ first :: rest, p ≤ x := by
  induction rest generalizing first with
  | nil => simp
  | cons x rest ih => simp [ih, or_assoc]

namespace backtest2

/-! ## One order -/

namespace OrderBase

/-- The fill of an order that waits for a price. It is the same one on every candle. -/
def trade (o : OrderBase) : FillOrderEvent := o.fill_event (flat_candle 0)

/-- The order waits for a price. -/
def Waits (o : OrderBase) : Prop := ∀ quantity_, o.cls ≠ .MarketOrder quantity_

theorem Waits.fill_event {o : OrderBase} (h : o.Waits) (candle : Candle) :
    o.fill_event candle = o.trade := by
  obtain ⟨cls, side, status, triggered, canceled⟩ := o
  rcases cls with ⟨p, q⟩ | q | ⟨p, q⟩
  · rfl
  · exact absurd rfl (h q)
  · rfl

/-- The merged candle reaches a price when one of its candles does. -/
theorem Waits.meets_merged {o : OrderBase} (h : o.Waits) (first : Candle) (rest : List Candle) :
    o.meets (rest.foldl merged first) = (first :: rest).any fun candle => o.meets candle := by
  rw [foldl_merged, Bool.eq_iff_iff, List.any_eq_true]
  obtain ⟨cls, side, status, triggered, canceled⟩ := o
  rcases cls with ⟨p, q⟩ | q | ⟨p, q⟩
  · cases side <;>
      simp only [meets, decide_eq_true_eq, low_aggregate, high_aggregate, foldl_min_le,
        le_foldl_max, ← List.map_cons, List.mem_map, exists_exists_and_eq_and]
  · exact absurd rfl (h q)
  · cases side <;>
      simp only [meets, decide_eq_true_eq, low_aggregate, high_aggregate, foldl_min_le,
        le_foldl_max, ← List.map_cons, List.mem_map, exists_exists_and_eq_and]

end OrderBase

namespace BacktestEngine

/-! ## The fills of many orders at once -/

/-- Each new order waits for a price, and its fill is the end of the matter. -/
def Loose (s : BacktestEngine) : Prop :=
  ∀ o ∈ s.orders_, o.status_ = .kNew → o.Waits ∧ o.triggered_ = [] ∧ o.canceled_ = []

/-- The fill of the order with the id. -/
def trade (s : BacktestEngine) (id : ℕ) : FillOrderEvent :=
  ((s.orders_[id]?).map OrderBase.trade).getD { side := .kBuy, base := 0, quote := 0 }

/-- The fills of the new orders among the named ones. -/
def loose_fills (s : BacktestEngine) (named : ℕ → Bool) : List (ℕ × FillOrderEvent) :=
  ((List.range s.orders_.length).filter fun id => s.is_status id .kNew && named id).map
    fun id => (id, s.trade id)

/-- From the first state to the second, exactly the new orders among the named ones are
filled. -/
structure Trades (s : BacktestEngine) (named : ℕ → Bool) (t : BacktestEngine) : Prop where
  orders : t.orders_ =
    restatus (fun j st => if st = .kNew ∧ named j = true then .kFilled else st) s.orders_
  base : t.base_ = s.base_ + ((s.loose_fills named).map fun x => base_delta x.2).sum
  quote : t.quote_ = s.quote_ + ((s.loose_fills named).map fun x => quote_delta x.2).sum
  lists : t.order_lists_ = s.order_lists_
  failed : t.failed = s.failed
  heard : ∃ log, t.heard = s.heard ++ log ∧
    log.Perm ((s.loose_fills named).map fun x => (x.1, OrderEvent.fill x.2))

section trades

variable {s t u : BacktestEngine} {named more : ℕ → Bool}

theorem loose_fills_congr (h : ∀ id, s.status? id = some .kNew → named id = more id) :
    s.loose_fills named = s.loose_fills more := by
  unfold loose_fills
  rw [List.filter_congr]
  intro id _
  cases hnew : s.is_status id .kNew with
  | false => rfl
  | true => rw [h id ((is_status_eq s id .kNew).mp hnew)]

/-- Only the new orders matter. -/
theorem Trades.congr (h : Trades s named t)
    (heq : ∀ id, s.status? id = some .kNew → named id = more id) : Trades s more t := by
  obtain ⟨horders, hbase, hquote, hlists, hfailed, hheard⟩ := h
  rw [loose_fills_congr heq] at hbase hquote hheard
  refine ⟨?_, hbase, hquote, hlists, hfailed, hheard⟩
  rw [horders]
  apply restatus_congr
  intro j o ho
  by_cases hnew : o.status_ = .kNew
  · rw [heq j (by rw [status?_of_get ho, hnew])]
  · simp [hnew]

theorem Trades.length (h : Trades s named t) : t.orders_.length = s.orders_.length := by
  rw [h.orders, restatus_length]

theorem Trades.trade (h : Trades s named t) (id : ℕ) : t.trade id = s.trade id := by
  unfold BacktestEngine.trade
  rw [h.orders, restatus_get]
  cases s.orders_[id]? <;> rfl

/-- What is new after the fills was new and was not among the named ones. -/
theorem Trades.is_new (h : Trades s named t) (id : ℕ) :
    t.is_status id .kNew = (s.is_status id .kNew && !named id) := by
  unfold is_status
  rw [h.orders, restatus_get]
  cases s.orders_[id]? with
  | none => rfl
  | some o =>
    simp only [Option.map_some, OrderBase.is_status, eq_comm (a := OrderStatus.kNew)]
    by_cases hnew : o.status_ = .kNew <;> cases hnamed : named id <;> simp [hnew]

theorem Trades.meets (h : Trades s named t) (id : ℕ) (candle : Candle) :
    t.meets id candle = s.meets id candle := restatus_meets s _ t h.orders id candle

theorem Trades.loose (h : Trades s named t) (hs : s.Loose) : t.Loose := by
  intro o ho hnew
  rw [h.orders] at ho
  obtain ⟨j, hj⟩ := List.getElem?_of_mem ho
  rw [restatus_get] at hj
  obtain ⟨o', ho', rfl⟩ := Option.map_eq_some_iff.mp hj
  have hold : o'.status_ = .kNew := by
    by_contra hne
    simp [hne] at hnew
  exact hs o' (List.mem_of_getElem? ho') hold

/-- The fills of the named ones and then those of more of them are the fills of all of them. -/
theorem Trades.loose_fills (h : Trades s named t) (more : ℕ → Bool) :
    (s.loose_fills named ++ t.loose_fills more).Perm
      (s.loose_fills fun id => named id || more id) := by
  have hsecond : t.loose_fills more = ((List.range s.orders_.length).filter fun id =>
      s.is_status id .kNew && (!named id && more id)).map fun id => (id, s.trade id) := by
    unfold BacktestEngine.loose_fills
    simp only [h.length, h.trade, h.is_new, Bool.and_assoc]
  rw [hsecond]
  unfold BacktestEngine.loose_fills
  rw [← List.map_append]
  refine List.Perm.map _ ?_
  have hsplit := List.filter_append_perm named ((List.range s.orders_.length).filter fun id =>
    s.is_status id .kNew && (named id || more id))
  rw [List.filter_filter, List.filter_filter] at hsplit
  have hleft : ∀ id, (named id && (s.is_status id .kNew && (named id || more id))) =
      (s.is_status id .kNew && named id) := by
    intro id
    cases s.is_status id .kNew <;> cases named id <;> rfl
  have hright : ∀ id, (!named id && (s.is_status id .kNew && (named id || more id))) =
      (s.is_status id .kNew && (!named id && more id)) := by
    intro id
    cases s.is_status id .kNew <;> cases named id <;> rfl
  simp only [hleft, hright] at hsplit
  exact hsplit

theorem Trades.trans (h1 : Trades s named t) (h2 : Trades t more u) :
    Trades s (fun id => named id || more id) u := by
  have hperm := h1.loose_fills more
  refine ⟨?_, ?_, ?_, h2.lists.trans h1.lists, h2.failed.trans h1.failed, ?_⟩
  · rw [h2.orders, h1.orders, restatus_restatus]
    apply restatus_congr
    intro j o _
    cases named j <;> cases more j <;> by_cases hnew : o.status_ = .kNew <;> simp [hnew]
  · rw [h2.base, h1.base, add_assoc, ← List.sum_append, ← List.map_append]
    exact congrArg _ (hperm.map _).sum_eq
  · rw [h2.quote, h1.quote, add_assoc, ← List.sum_append, ← List.map_append]
    exact congrArg _ (hperm.map _).sum_eq
  · obtain ⟨log1, he1, hlog1⟩ := h1.heard
    obtain ⟨log2, he2, hlog2⟩ := h2.heard
    refine ⟨log1 ++ log2, by rw [he2, he1, List.append_assoc], ?_⟩
    refine (hlog1.append hlog2).trans ?_
    rw [← List.map_append]
    exact hperm.map _

theorem trades_none (s : BacktestEngine) : Trades s (fun _ => false) s := by
  have hnone : s.loose_fills (fun _ => false) = [] := by simp [BacktestEngine.loose_fills]
  refine ⟨?_, by simp [hnone], by simp [hnone], rfl, rfl, [], by simp, by simp [hnone]⟩
  simp [restatus_id]

/-! ## One sweep -/

/-- The fill of one new order. -/
theorem trades_filled (hs : s.Loose) {id : ℕ} {o : OrderBase} (ho : s.orders_[id]? = some o)
    (hnew : o.status_ = .kNew) (candle : Candle) :
    Trades s (fun j => j = id) (s.filled id o (o.fill_event candle)) := by
  obtain ⟨hwaits, htriggered, hcanceled⟩ := hs o (List.mem_of_getElem? ho) hnew
  have hlt := (List.getElem?_eq_some_iff.mp ho).1
  have hone : s.loose_fills (fun j => j = id) = [(id, o.trade)] := by
    unfold BacktestEngine.loose_fills
    have hids : ((List.range s.orders_.length).filter fun j =>
        s.is_status j .kNew && decide (j = id)) = [id] := by
      apply List.perm_singleton.mp
      rw [List.perm_ext_iff_of_nodup (List.nodup_range.filter _) (List.nodup_singleton id)]
      intro j
      simp only [List.mem_filter, List.mem_range, Bool.and_eq_true, decide_eq_true_eq,
        List.mem_singleton, is_status_eq]
      constructor
      · rintro ⟨_, _, rfl⟩
        rfl
      · rintro rfl
        exact ⟨hlt, by rw [status?_of_get ho, hnew], rfl⟩
    rw [hids]
    simp [BacktestEngine.trade, ho]
  rw [hwaits.fill_event]
  refine ⟨?_, by simp [filled, hone], by simp [filled, hone], rfl, ?_,
    fill_events id o o.trade, rfl, ?_⟩
  · unfold filled
    apply restatus_congr
    intro j o' ho'
    by_cases hj : j = id
    · subst hj
      rw [ho] at ho'
      cases ho'
      simp [after_fill, hcanceled, htriggered, hnew]
    · simp [after_fill, hcanceled, htriggered, hj]
  · simp [filled, htriggered]
  · simp [fill_events, htriggered, hcanceled, hone]

theorem trades_turn (h : Sound s) (hs : s.Loose) (candle : Candle) (id : ℕ) :
    Trades s (fun j => decide (j = id) && s.meets j candle) (s.update_order candle id) ∧
      (s.update_order candle id).new_orders_ = s.new_orders_ := by
  rcases update_order_cases h.wired candle id with ⟨o, ho, hnew, hmeets, he⟩ | ⟨hno, he⟩
  · rw [he]
    rw [status?_of_get ho] at hnew
    have hstatus := Option.some.inj hnew
    refine ⟨(trades_filled hs ho hstatus candle).congr fun j _ => ?_, ?_⟩
    · by_cases hj : j = id
      · subst hj
        simp [hmeets]
      · simp [hj]
    · rw [filled_queue, (hs o (List.mem_of_getElem? ho) hstatus).2.1, List.append_nil]
  · rw [he]
    refine ⟨(trades_none s).congr fun j hj => ?_, rfl⟩
    by_cases heq : j = id
    · subst heq
      cases hm : s.meets j candle with
      | false => simp
      | true => exact absurd ⟨hj, hm⟩ hno
    · simp [heq]

/-- A sweep fills the new orders that meet their conditions on the candle. -/
theorem trades_sweep (h : Sound s) (hs : s.Loose) {candle : Candle} {fuel : ℕ}
    (hrun : s.update_new_orders fuel candle = some t) :
    Trades s (fun id => s.meets id candle) t ∧
      t.new_orders_ = s.new_orders_.filter fun id => t.is_status id .kNew := by
  obtain ⟨u, rfl, _, htrades, hqueue⟩ := sweep_induct
    (p := fun i u =>
      Trades s (fun id => decide (id ∈ s.new_orders_.take i) && s.meets id candle) u ∧
        u.new_orders_ = s.new_orders_)
    (by
      rintro i u id hu hid ⟨htrades, hqueue⟩
      obtain ⟨hturn, hsame⟩ := trades_turn hu (htrades.loose hs) candle id
      refine ⟨(htrades.trans hturn).congr fun j _ => ?_, hsame.trans hqueue⟩
      rw [hqueue] at hid
      rw [htrades.meets, List.take_add_one, hid]
      cases s.meets j candle <;> simp)
    h ⟨(trades_none s).congr fun j _ => by simp, rfl⟩ hrun
  rw [hqueue, List.take_length] at htrades
  refine ⟨?_, by simp only [remove_stale, hqueue]; rfl⟩
  have hall : Trades s (fun id => s.meets id candle) u := by
    refine htrades.congr fun j hj => ?_
    simp [h.new_queued j hj]
  exact ⟨hall.orders, hall.base, hall.quote, hall.lists, hall.failed, hall.heard⟩

/-- The sweeps of some candles fill the orders that meet their conditions on one of them. -/
theorem trades_candles {first : Candle} {rest : List Candle} (h : Sound s) (hs : s.Loose)
    (hrun : Run s ((first :: rest).map Action.candle) t) :
    Trades s (fun id => (first :: rest).any fun candle => s.meets id candle) t ∧
      t.new_orders_ = s.new_orders_.filter fun id => t.is_status id .kNew := by
  induction rest generalizing first s with
  | nil =>
    cases hrun with
    | cons hstep hnil =>
      cases hnil
      cases hstep with
      | candle hsweep =>
        simp only [List.any_cons, List.any_nil, Bool.or_false]
        exact trades_sweep h hs hsweep
  | cons candle rest ih =>
    cases hrun with
    | cons hstep hrest =>
      have hmid := sound_step hstep h
      cases hstep with
      | candle hsweep =>
        obtain ⟨hfirst, hqueue⟩ := trades_sweep h hs hsweep
        obtain ⟨hmore, hqueue'⟩ := ih hmid (hfirst.loose hs) hrest
        refine ⟨(hfirst.trans hmore).congr fun j _ => ?_, ?_⟩
        · simp only [hfirst.meets, List.any_cons]
        · rw [hqueue', hqueue, List.filter_filter]
          apply List.filter_congr
          intro j _
          rw [hmore.is_new]
          cases BacktestEngine.is_status _ j .kNew <;> simp

/-- Two states with the same fills differ in the order of the events alone. -/
theorem Trades.unique (h1 : Trades s named t) (h2 : Trades s named u)
    (hqueue1 : t.new_orders_ = s.new_orders_.filter fun id => t.is_status id .kNew)
    (hqueue2 : u.new_orders_ = s.new_orders_.filter fun id => u.is_status id .kNew) :
    t.heard.Perm u.heard ∧ { t with heard := u.heard } = u := by
  obtain ⟨log1, he1, hlog1⟩ := h1.heard
  obtain ⟨log2, he2, hlog2⟩ := h2.heard
  refine ⟨?_, ?_⟩
  · rw [he1, he2]
    exact (hlog1.trans hlog2.symm).append_left _
  · have horders := h1.orders.trans h2.orders.symm
    have hbase := h1.base.trans h2.base.symm
    have hquote := h1.quote.trans h2.quote.symm
    have hlists := h1.lists.trans h2.lists.symm
    have hfailed := h1.failed.trans h2.failed.symm
    have hqueue : t.new_orders_ = u.new_orders_ := by
      rw [hqueue1, hqueue2]
      simp only [h1.is_new, h2.is_new]
    rw [horders, hbase, hquote, hlists, hfailed, hqueue]

end trades

/-! ## The merged candle -/

theorem chain_of_merge {first candle : Candle} {rest : List Candle}
    (hvolume : ∀ c ∈ first :: rest, 0 < c.volume) (h : merge_all first rest = .ok candle) :
    candle = rest.foldl merged first := by
  rw [merge_all_trading (fun c hc => (hvolume c hc).le) (trading_all hvolume)] at h
  unfold merge_chain at h
  split_ifs at h
  exact (Except.ok.inj h).symm

/-- While each new order only waits for a price, the engine does the same with candles that have
a volume and with the candle that `merge` makes of them: it fills the same orders, and in the end
only the order of the events can differ. -/
theorem small_candles_trade_like_their_merge {base quote : ℚ} {acts : List Action}
    {s : BacktestEngine} (h : Run (init base quote) acts s) (hs : s.Loose)
    {first candle : Candle} {rest : List Candle} (hvolume : ∀ c ∈ first :: rest, 0 < c.volume)
    (hmerge : merge_all first rest = .ok candle) :
    ∃ fine coarse, Run s ((first :: rest).map Action.candle) fine ∧
      Step s (.candle candle) coarse ∧ fine.heard.Perm coarse.heard ∧
      { fine with heard := coarse.heard } = coarse := by
  have hsound := sound_of_run h
  obtain ⟨fine, hfine⟩ := candles_run (first :: rest) hsound
  obtain ⟨coarse, hcoarse⟩ := sweep_returns hsound candle
  obtain ⟨htrades1, hqueue1⟩ := trades_candles hsound hs hfine
  obtain ⟨htrades2, hqueue2⟩ := trades_sweep hsound hs hcoarse
  rw [chain_of_merge hvolume hmerge] at htrades2
  have hsame : Trades s (fun id => s.meets id (rest.foldl merged first)) fine := by
    refine htrades1.congr fun id hid => ?_
    obtain ⟨o, ho, hnew⟩ := exists_get_of_status? hid
    have hwaits := (hs o (List.mem_of_getElem? ho) hnew).1
    simp only [BacktestEngine.meets, ho, Option.map_some, Option.getD_some,
      hwaits.meets_merged first rest]
  exact ⟨fine, coarse, hfine, .candle hcoarse, hsame.unique htrades2 hqueue1 hqueue2⟩

/-- A sell above the price and a buy below it. -/
def around_the_price : List Action :=
  [.command (.NewOrder (.NewLimitOrder .kSell 20 1)),
    .command (.NewOrder (.NewLimitOrder .kBuy 10 2))]

/-- The price falls to the buy and then rises to the sell, and the merged candle meets the sell
first. -/
theorem a_fall_and_a_rise_trade_like_one_candle :
    ∃ s candle fine coarse, Run (init 3 100) around_the_price s ∧
      merge_all (minute 0 15 1) [minute 1 9 1, minute 2 21 1] = .ok candle ∧
      Run s ([minute 0 15 1, minute 1 9 1, minute 2 21 1].map Action.candle) fine ∧
      Step s (.candle candle) coarse ∧ fine.heard.Perm coarse.heard ∧
      { fine with heard := coarse.heard } = coarse := by
  let s := ((init 3 100).execute (.NewOrder (.NewLimitOrder .kSell 20 1))).execute
    (.NewOrder (.NewLimitOrder .kBuy 10 2))
  have hrun : Run (init 3 100) around_the_price s :=
    .cons (.command trivial) (.single (.command trivial))
  have hloose : s.Loose := by
    intro o ho _
    have hor : o = make_order .kNew (.NewLimitOrder .kSell 20 1) ∨
        o = make_order .kNew (.NewLimitOrder .kBuy 10 2) := by
      simpa [s, init, execute, execute_new_order_eq, placed] using ho
    rcases hor with rfl | rfl <;> exact ⟨fun q => by simp [make_order], rfl, rfl⟩
  have hvolume : ∀ c ∈ [minute 0 15 1, minute 1 9 1, minute 2 21 1], 0 < c.volume := by
    simp [minute]
  have hmerge : merge_all (minute 0 15 1) [minute 1 9 1, minute 2 21 1] =
      .ok ([minute 1 9 1, minute 2 21 1].foldl merged (minute 0 15 1)) :=
    merge_all_eq hvolume (by decide)
  obtain ⟨fine, coarse, h⟩ := small_candles_trade_like_their_merge hrun hloose hvolume hmerge
  exact ⟨s, _, fine, coarse, hrun, hmerge, h⟩

end BacktestEngine

end backtest2

end wedge
