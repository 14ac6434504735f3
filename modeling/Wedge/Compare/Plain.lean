-- Plain orders in the two backtest engines: limit and market orders that are placed
-- and canceled between the candles. A map that forgets an order when it fills, and a
-- list of statuses with a queue, go through the same accounts and the same orders.
import Wedge.Backtest.Effects
import Wedge.Backtest.Bookkeeping
import Wedge.Backtest2.Sweep

namespace wedge

open programs containers runs backtest2

/-! ## The same order in both engines -/

namespace OrderCall

/-- The command of the new engine for the call. -/
def new_order : OrderCall → NewOrder
  | .limit_buy_order quantity price => .NewLimitOrder .kBuy price quantity
  | .limit_sell_order quantity price => .NewLimitOrder .kSell price quantity
  | .market_buy_order quantity => .NewMarketOrder .kBuy quantity
  | .market_sell_order quantity => .NewMarketOrder .kSell quantity

/-- The order of the new engine, without links. -/
def order_base (status : OrderStatus) (order : OrderCall) : OrderBase :=
  BacktestEngine.make_order status order.new_order

@[simp] theorem order_base_status (status : OrderStatus) (order : OrderCall) :
    (order.order_base status).status_ = status := BacktestEngine.make_order_status _ _

@[simp] theorem order_base_meets (status : OrderStatus) (order : OrderCall) (candle : Candle) :
    (order.order_base status).meets candle = order.meets candle := by
  cases order <;> rfl

theorem order_base_fill_event (status : OrderStatus) (order : OrderCall) (candle : Candle) :
    (order.order_base status).fill_event candle = {
      side := order.side
      base := order.quantity
      quote := order.quantity * order.fill_price candle } := by
  cases order <;> rfl

theorem order_base_inj {status status' : OrderStatus} {order order' : OrderCall}
    (h : order.order_base status = order'.order_base status') : order = order' := by
  cases order <;> cases order' <;> cases h <;> rfl

theorem order_base_restatus (status status' : OrderStatus) (order : OrderCall) :
    { order.order_base status with status_ := status' } = order.order_base status' := by
  cases order <;> rfl

end OrderCall

/-- The book has limit and market orders only, without links. -/
def PlainBook (s : BacktestEngine) : Prop :=
  ∀ o ∈ s.orders_, ∃ status order, o = OrderCall.order_base status order

/-- Both engines hold the same amounts and the same open orders, and the new one knows plain
orders only. -/
structure Mirrors (c : BacktestContext) (s : BacktestEngine) : Prop where
  quote : c.account_.balance = s.quote_
  base : c.account_.position = s.base_
  commission : c.commission_ = 1 / 10000
  index : c.last_order_index_ = s.orders_.length
  ascending : c.orders_.Ascending
  still_open : ∀ (k : ℕ) (order : OrderCall),
    (k, order) ∈ c.orders_ ↔ s.orders_[k]? = some (order.order_base .kNew)
  plain : PlainBook s

section mirrors

variable {c : BacktestContext} {s : BacktestEngine} {k : ℕ} {order : OrderCall} {candle : Candle}

theorem Mirrors.key (h : Mirrors c s) (k : OrderIndex) :
    k ∈ c.orders_.keys ↔ s.status? k = some .kNew := by
  rw [Map.mem_keys]
  constructor
  · rintro ⟨order, ho⟩
    rw [BacktestEngine.status?_of_get ((h.still_open k order).mp ho), OrderCall.order_base_status]
  · intro hk
    obtain ⟨o, ho, hnew⟩ := BacktestEngine.exists_get_of_status? hk
    obtain ⟨status, order, rfl⟩ := h.plain o (List.mem_of_getElem? ho)
    rw [OrderCall.order_base_status] at hnew
    subst hnew
    exact ⟨order, (h.still_open k order).mpr ho⟩

/-- Every open index was given out. -/
theorem Mirrors.small (h : Mirrors c s) : ∀ k ∈ c.orders_.keys, k < c.last_order_index_ := by
  intro k hk
  rw [h.index]
  exact BacktestEngine.status?_lt ((h.key k).mp hk)

/-- The other orders stay, and one order leaves the status `kNew`. -/
theorem Mirrors.leave {f : ℕ → OrderStatus → OrderStatus} {account : Account} {t : BacktestEngine}
    (h : Mirrors c s) (ho : t.orders_ = restatus f s.orders_)
    (hself : ∀ status, f k status ≠ .kNew) (hother : ∀ j status, j ≠ k → f j status = status)
    (hquote : account.balance = t.quote_) (hbase : account.position = t.base_) :
    Mirrors { c with account_ := account, orders_ := c.orders_.erase k } t := by
  refine ⟨hquote, hbase, h.commission, by rw [ho, restatus_length, h.index], h.ascending.erase k,
    fun j order => ?_, fun o hmem => ?_⟩
  · rw [Map.mem_erase, h.still_open, ho, restatus_get]
    by_cases hj : j = k
    · subst hj
      simp only [ne_eq, not_true_eq_false, and_false, false_iff, Option.map_eq_some_iff, not_exists,
        not_and]
      intro o _ heq
      have hnew := congrArg OrderBase.status_ heq
      rw [OrderCall.order_base_status] at hnew
      exact hself o.status_ hnew
    · simp [hj, hother]
  · obtain ⟨j, hj⟩ := List.getElem?_of_mem hmem
    rw [ho, restatus_get] at hj
    obtain ⟨o', ho', rfl⟩ := Option.map_eq_some_iff.mp hj
    obtain ⟨status, order, rfl⟩ := h.plain o' (List.mem_of_getElem? ho')
    exact ⟨_, order, OrderCall.order_base_restatus _ _ _⟩

/-! ## One look -/

theorem update_order_plain (h : s.orders_[k]? = some (order.order_base .kNew)) :
    s.update_order candle k =
      if order.meets candle = true then
        s.filled k (order.order_base .kNew) ((order.order_base .kNew).fill_event candle)
      else s := by
  have hkids : (order.order_base .kNew).triggered_ = [] := BacktestEngine.make_order_triggered _ _
  rw [BacktestEngine.update_order_eq candle h (by simp [hkids]) (by simp [hkids])]
  simp

/-- The candle does not meet the order. -/
theorem Mirrors.passes (h : Mirrors c s) (ho : (k, order) ∈ c.orders_)
    (hm : order.meets candle = false) : s.update_order candle k = s := by
  rw [update_order_plain ((h.still_open k order).mp ho), hm]
  rfl

/-- The order is executed. -/
theorem Mirrors.fills (h : Mirrors c s) (ho : (k, order) ∈ c.orders_)
    (hm : order.meets candle = true) :
    Mirrors { c with
      account_ := c.paid order.side order.quantity (order.fill_price candle)
      orders_ := c.orders_.erase k } (s.update_order candle k) := by
  rw [update_order_plain ((h.still_open k order).mp ho), if_pos hm,
    OrderCall.order_base_fill_event]
  refine h.leave rfl ?_ ?_ ?_ ?_
  · simp [OrderCall.order_base, BacktestEngine.after_fill]
  · intro j status hj
    simp [OrderCall.order_base, BacktestEngine.after_fill, hj]
  · cases order <;>
      simp [BacktestContext.paid, BacktestEngine.filled, BacktestEngine.quote_delta,
        OrderCall.side, h.quote, h.commission, sub_eq_add_neg]
  · cases order <;>
      simp [BacktestContext.paid, BacktestEngine.filled, BacktestEngine.base_delta,
        OrderCall.side, h.base, h.commission, sub_eq_add_neg]

end mirrors

/-! ## The sweep of the new engine -/

section sweep

variable {s : BacktestEngine} {candle : Candle}

/-- A turn of the sweep over a plain book does nothing or fills a new order. -/
theorem PlainBook.turn (h : PlainBook s) (candle : Candle) (k : ℕ) :
    s.update_order candle k = s ∨ ∃ order : OrderCall,
      s.orders_[k]? = some (order.order_base .kNew) ∧ s.update_order candle k =
        s.filled k (order.order_base .kNew) ((order.order_base .kNew).fill_event candle) := by
  cases ho : s.orders_[k]? with
  | none => exact Or.inl (by simp [BacktestEngine.update_order, ho])
  | some o =>
    obtain ⟨status, order, rfl⟩ := h o (List.mem_of_getElem? ho)
    by_cases hnew : status = .kNew
    · subst hnew
      rw [update_order_plain ho]
      split
      · exact Or.inr ⟨order, rfl, rfl⟩
      · exact Or.inl rfl
    · refine Or.inl ?_
      simp [BacktestEngine.update_order, ho, OrderBase.is_status, Ne.symm hnew]

theorem PlainBook.turn_keeps (h : PlainBook s) (candle : Candle) (k : ℕ) :
    PlainBook (s.update_order candle k) ∧
      (s.update_order candle k).new_orders_ = s.new_orders_ ∧
      ∀ j, j ≠ k → (s.update_order candle k).status? j = s.status? j := by
  rcases h.turn candle k with he | ⟨order, ho, he⟩ <;> rw [he]
  · exact ⟨h, rfl, fun j _ => rfl⟩
  · refine ⟨fun o hmem => ?_, by simp [OrderCall.order_base], fun j hj => ?_⟩
    · obtain ⟨j, hj⟩ := List.getElem?_of_mem hmem
      simp only [BacktestEngine.filled, restatus_get] at hj
      obtain ⟨o', ho', rfl⟩ := Option.map_eq_some_iff.mp hj
      obtain ⟨status, order', rfl⟩ := h o' (List.mem_of_getElem? ho')
      exact ⟨_, order', OrderCall.order_base_restatus _ _ _⟩
    · apply BacktestEngine.filled_status_other _ ho _ _ hj
      · simp [BacktestEngine.rivals_of_get ho, OrderCall.order_base]
      · simp [BacktestEngine.children_of_get ho, OrderCall.order_base]

/-- An order that is not new is passed over. -/
theorem turn_stale {k : ℕ} (h : s.status? k ≠ some .kNew) : s.update_order candle k = s := by
  cases ho : s.orders_[k]? with
  | none => simp [BacktestEngine.update_order, ho]
  | some o =>
    rw [BacktestEngine.status?_of_get ho] at h
    simp only [BacktestEngine.update_order, ho]
    rw [if_neg]
    intro hnew
    exact h (congrArg some (of_decide_eq_true hnew).symm)

/-- The stale entries of the queue play no part. -/
theorem PlainBook.fold_new (h : PlainBook s) {queue : List ℕ} (hqueue : queue.Nodup) :
    queue.foldl (fun s k => s.update_order candle k) s =
      (queue.filter fun k => s.is_status k .kNew).foldl (fun s k => s.update_order candle k) s := by
  induction queue generalizing s with
  | nil => rfl
  | cons k queue ih =>
    obtain ⟨hk, hqueue⟩ := List.nodup_cons.mp hqueue
    obtain ⟨hplain, _, hother⟩ := h.turn_keeps candle k
    have hsame : queue.filter (fun j => (s.update_order candle k).is_status j .kNew) =
        queue.filter fun j => s.is_status j .kNew := by
      apply List.filter_congr
      intro j hj
      have hne : j ≠ k := fun heq => hk (heq ▸ hj)
      rw [Bool.eq_iff_iff, BacktestEngine.is_status_eq, BacktestEngine.is_status_eq, hother j hne]
    rw [List.foldl_cons, ih hplain hqueue, hsame]
    by_cases hnew : s.is_status k .kNew = true
    · simp only [List.filter_cons, hnew, if_true, List.foldl_cons]
    · have hstale : s.update_order candle k = s :=
        turn_stale (mt (BacktestEngine.is_status_eq s k .kNew).mpr hnew)
      simp only [List.filter_cons, hnew, if_false, hstale, Bool.false_eq_true]

/-- The sweep over a plain book looks at each new order once. -/
theorem PlainBook.sweep (h : PlainBook s) (hqueue : s.new_orders_.Nodup) (candle : Candle) :
    s.update_new_orders (s.new_orders_.length + 1) candle =
      some ((s.new_orders_.filter fun k => s.is_status k .kNew).foldl
        (fun s k => s.update_order candle k) s).remove_stale := by
  unfold BacktestEngine.update_new_orders
  rw [worklist.walk_fixed (fun s k hs => (PlainBook.turn_keeps hs candle k).2.1)
    (fun s k hs => (PlainBook.turn_keeps hs candle k).1) h (Nat.zero_le _) (Nat.lt_succ_self _),
    List.drop_zero]
  exact congrArg (fun t => some t.remove_stale) (h.fold_new hqueue)

end sweep

/-! ## Between the candles -/

/-- The engines between two candles. -/
structure Alike (c : BacktestContext) (s : BacktestEngine) : Prop where
  mirrors : Mirrors c s
  sound : BacktestEngine.Sound s
  queue : s.new_orders_.Pairwise (· < ·)

section alike

variable {c : BacktestContext} {s : BacktestEngine} {candle : Candle}

/-- The map of the old engine holds what is new in the queue of the new one. -/
theorem Alike.keys (h : Alike c s) :
    c.orders_.keys = s.new_orders_.filter fun k => s.is_status k .kNew := by
  apply List.Pairwise.eq_of_mem_iff h.mirrors.ascending (h.queue.filter _)
  intro k
  rw [h.mirrors.key, List.mem_filter, BacktestEngine.is_status_eq]
  exact ⟨fun hk => ⟨h.sound.new_queued k hk, hk⟩, And.right⟩

theorem alike_start (account : Account) :
    Alike { account_ := account, commission_ := 1 / 10000 }
      (BacktestEngine.init account.position account.balance) := by
  refine ⟨⟨rfl, rfl, rfl, rfl, Map.ascending_empty, fun k order => ?_, fun o ho => ?_⟩,
    BacktestEngine.sound_init _ _, List.Pairwise.nil⟩
  · simp [BacktestEngine.init, Map.not_mem_empty]
  · cases ho

theorem Alike.place (h : Alike c s) (order : OrderCall) :
    Alike (c.add_order order).2 (s.execute (.NewOrder order.new_order)) := by
  have hfits : c.Fits 0 := ⟨Nat.zero_le _, h.mirrors.small⟩
  have hlen := h.mirrors.index
  have hsound := BacktestEngine.sound_step (.command (c := .NewOrder order.new_order) trivial) h.sound
  simp only [BacktestEngine.execute, BacktestEngine.execute_new_order_eq] at hsound ⊢
  refine ⟨⟨h.mirrors.quote, h.mirrors.base, h.mirrors.commission, ?_,
    h.mirrors.ascending.emplace h.mirrors.small order, fun k order' => ?_, fun o ho => ?_⟩, hsound,
    ?_⟩
  · rw [BacktestEngine.placed_length, ← hlen]
    rfl
  · refine (sorted.mem_emplace hfits.new).trans ?_
    rw [h.mirrors.still_open, hlen, Prod.mk.injEq]
    change _ ↔ (s.orders_ ++ [order.order_base .kNew])[k]? = _
    rw [List.getElem?_append]
    by_cases hk : k < s.orders_.length
    · simp [hk, Nat.ne_of_lt hk]
    · have hnone : s.orders_[k]? = none := List.getElem?_eq_none (Nat.le_of_not_lt hk)
      rw [hnone, if_neg hk, List.getElem?_singleton]
      by_cases hz : k - s.orders_.length = 0
      · have : k = s.orders_.length := by omega
        simp only [this, true_and, reduceCtorEq, or_false, Nat.sub_self, if_true,
          Option.some.injEq]
        exact ⟨fun heq => by rw [heq], fun heq => (OrderCall.order_base_inj heq).symm⟩
      · have : k ≠ s.orders_.length := by omega
        simp [this, hz]
  · rcases List.mem_append.mp ho with ho | ho
    · exact h.mirrors.plain o ho
    · exact ⟨.kNew, order, List.mem_singleton.mp ho⟩
  · rw [BacktestEngine.placed_queue]
    refine List.pairwise_append.mpr ⟨h.queue, List.pairwise_singleton _ _, fun i hi j hj => ?_⟩
    rw [List.mem_singleton.mp hj]
    exact h.sound.queue_lt i hi

theorem Alike.cancel (h : Alike c s) {k : OrderIndex} (hk : k < c.last_order_index_) :
    Alike (c.cancel k) (s.execute (.CancelOrder k)) := by
  have hknown : s.Known (.CancelOrder k) := by
    rw [h.mirrors.index] at hk
    exact hk
  have hsound := BacktestEngine.sound_step (.command hknown) h.sound
  simp only [BacktestEngine.execute, BacktestEngine.execute_cancel_order_eq] at hsound ⊢
  refine ⟨h.mirrors.leave rfl ?_ ?_ h.mirrors.quote h.mirrors.base, hsound, h.queue⟩
  · simp
  · intro j status hj
    simp [hj]

/-- The new engine after the looks of a sweep, before it drops the stale entries. -/
def looked (candle : Candle) (keys : List ℕ) (s : BacktestEngine) : BacktestEngine :=
  keys.foldl (fun s k => s.update_order candle k) s

theorem PlainBook.looked_queue (h : PlainBook s) (keys : List ℕ) :
    (looked candle keys s).new_orders_ = s.new_orders_ := by
  unfold looked
  induction keys generalizing s with
  | nil => rfl
  | cons k keys ih =>
    obtain ⟨hplain, hqueue, _⟩ := h.turn_keeps candle k
    exact (ih hplain).trans hqueue

/-- The end of a sweep over the orders that were open. -/
theorem Alike.swept {c' : BacktestContext} (h : Alike c s)
    (hmirrors : Mirrors c' (looked candle c.orders_.keys s)) :
    BacktestEngine.Step s (.candle candle) (looked candle c.orders_.keys s).remove_stale ∧
      Alike c' (looked candle c.orders_.keys s).remove_stale := by
  have hrun := h.mirrors.plain.sweep h.sound.queue_nodup candle
  rw [← h.keys] at hrun
  have hstep := BacktestEngine.Step.candle hrun
  refine ⟨hstep, ⟨?_, BacktestEngine.sound_step hstep h.sound, ?_⟩⟩
  · exact ⟨hmirrors.quote, hmirrors.base, hmirrors.commission, hmirrors.index,
      hmirrors.ascending, hmirrors.still_open, hmirrors.plain⟩
  · have hqueue : (looked candle c.orders_.keys s).new_orders_ = s.new_orders_ :=
      h.mirrors.plain.looked_queue c.orders_.keys
    change ((looked candle c.orders_.keys s).new_orders_.filter _).Pairwise _
    rw [hqueue]
    exact h.queue.filter _

end alike

/-! ## The commands of the strategy -/

/-- The calls of a strategy, as commands to the new engine. -/
def actions (calls : List ((op : BrokerCall) × op.Answer)) : List BacktestEngine.Action :=
  calls.filterMap fun call => match call.1 with
    | .place order => some (.command (.NewOrder order.new_order))
    | .cancel index => some (.command (.CancelOrder index))
    | .account => none

theorem actions_snoc (calls : List ((op : BrokerCall) × op.Answer))
    (call : (op : BrokerCall) × op.Answer) :
    actions (calls ++ [call]) = actions calls ++ actions [call] := List.filterMap_append

/-- A cancel names an order that was placed. -/
def NamesPlaced : BrokerCall → BacktestContext → Prop
  | .cancel index, c => index < c.last_order_index_
  | _, _ => True

/-- The new engine follows a program of the strategy. -/
theorem Alike.follows {α : Type} {prog : StrategyProg α} {a : α} {c c' : BacktestContext}
    {s : BacktestEngine} (h : Alike c s) (hob : Obeys BacktestBroker NamesPlaced prog c)
    (hrun : run BacktestBroker prog c = (.ok a, c')) :
    ∃ s', BacktestEngine.Run s (actions (trace BacktestBroker prog c)) s' ∧ Alike c' s' := by
  have := hob.trace_keeps (l := [])
    (p := fun calls c => ∃ s', BacktestEngine.Run s (actions calls) s' ∧ Alike c s')
    (fun calls op b c c' hop ho => ?_) hrun ⟨s, .nil s, h⟩
  · exact this
  rintro ⟨s', hs', halike⟩
  rw [actions_snoc]
  cases op with
  | place order =>
    cases ho
    exact ⟨_, hs'.snoc (.command trivial), halike.place order⟩
  | cancel index =>
    cases ho
    refine ⟨_, hs'.snoc (.command ?_), halike.cancel hop⟩
    change index < s'.orders_.length
    rw [← halike.mirrors.index]
    exact hop
  | account =>
    cases ho
    exact ⟨s', by simpa [actions] using hs', halike⟩

/-! ## The runs of the old engine -/

namespace BacktestRun

variable {σ : Type}

/-- What a step stands for in the new engine: the candle at the end of its traversal, and the
commands of `update`. -/
def heard (S : IStrategy σ) (r : BacktestRun σ) (_ : Unit) : List BacktestEngine.Action :=
  match r.pc with
  | .visit none _ candle => [.candle candle]
  | .visit (some index) last_index candle => if index < last_index then [] else [.candle candle]
  | .swept candle => actions (trace BacktestBroker (S.update candle r.strategy) r.context)
  | _ => []

/-- An order that the candle meets is not refused for lack of funds, and a cancel names an order
that was placed. -/
def NeverRefuses (S : IStrategy σ) (r : BacktestRun σ) (_ : Unit) : Prop :=
  match r.pc with
  | .visit (some index) last_index candle => index < last_index →
      ∀ order ∈ r.context.orders_.find index, order.meets candle = true →
        r.context.Funds order.side order.quantity (order.fill_price candle)
  | .swept candle => Obeys BacktestBroker NamesPlaced (S.update candle r.strategy) r.context
  | _ => True

/-- An order that is not executed is not met. -/
theorem NeverRefuses.not_met {S : IStrategy σ} {r : BacktestRun σ} {k last : OrderIndex}
    {candle : Candle} {order : OrderCall} (h : r.NeverRefuses S ())
    (hpc : r.pc = .visit (some k) last candle) (hlt : k < last)
    (hfind : r.context.orders_.find k = some order) (hexec : ¬ order.Executes r.context candle) :
    order.meets candle = false := by
  rw [NeverRefuses, hpc] at h
  by_contra hm
  have hm := Bool.eq_true_of_not_eq_false hm
  exact hexec ⟨hm, h hlt order hfind hm⟩

/-- In the traversal of a candle: the engines were alike when the candle came, `s` is the new
engine then, and `t` is the new engine with the looks so far. The looks at `rest` are left. -/
def Looking (start : BacktestEngine) (log : List BacktestEngine.Action) (candle : Candle)
    (rest : List OrderIndex) (c : BacktestContext) : Prop :=
  ∃ c₀ s t, BacktestEngine.Run start log s ∧ Alike c₀ s ∧ Mirrors c t ∧
    looked candle rest t = looked candle c₀.orders_.keys s

/-- The end of the traversal is the sweep of the new engine. -/
theorem Looking.swept {start : BacktestEngine} {log : List BacktestEngine.Action} {candle : Candle}
    {c : BacktestContext} (h : Looking start log candle [] c) :
    ∃ s, BacktestEngine.Run start (log ++ [.candle candle]) s ∧ Alike c s := by
  obtain ⟨c₀, s, t, hrun, halike, hmirrors, hleft⟩ := h
  change t = _ at hleft
  rw [hleft] at hmirrors
  obtain ⟨hstep, halike'⟩ := halike.swept hmirrors
  exact ⟨_, hrun.snoc hstep, halike'⟩

/-- What holds at each place of a run that has stood for the actions `log`. -/
def Paired (start : BacktestEngine) (log : List BacktestEngine.Action) (r : BacktestRun σ) : Prop :=
  match r.pc with
  | .next => ∃ s, BacktestEngine.Run start log s ∧ Alike r.context s
  | .visit iterator last_index candle =>
    Looking start log candle (r.context.orders_.rest iterator) r.context ∧
      (∀ k, iterator = some k → k ∈ r.context.orders_.keys) ∧
      ∀ k ∈ r.context.orders_.keys, k < last_index
  | .filled index last_index candle | .reported index last_index candle =>
    Looking start log candle (r.context.orders_.rest (r.context.orders_.next index))
        (r.context.cancel index) ∧
      index ∈ r.context.orders_.keys ∧ ∀ k ∈ r.context.orders_.keys, k < last_index
  | .swept _ => ∃ s, BacktestEngine.Run start log s ∧ Alike r.context s
  | .crashed _ => True

theorem paired_step {S : IStrategy σ} (hsilent : ∀ index s, S.on_order_filled index s = .ret s)
    {start : BacktestEngine} {log : List BacktestEngine.Action} {r r' : BacktestRun σ}
    (hstep : r.step S = some r') (hok : r.NeverRefuses S ()) (h : Paired start log r) :
    Paired start (log ++ heard S r ()) r' := by
  unfold Paired at h
  cases step_moves hstep with
  | start hpc hd =>
    rw [hpc] at h
    obtain ⟨s, hrun, halike⟩ := h
    rw [heard, hpc, List.append_nil]
    refine ⟨⟨r.context, s, s, hrun, halike, halike.mirrors, ?_⟩, fun k hk => Map.first_mem hk,
      halike.mirrors.small⟩
    rw [Map.rest_first]
  | finish hpc =>
    rw [hpc] at h
    rw [heard, hpc]
    exact h.1.swept
  | bound hpc hle =>
    -- No order is behind the bound.
    rw [hpc] at h
    exact absurd (h.2.2 _ (h.2.1 _ rfl)) (Nat.not_lt.mpr hle)
  | @pass k last candle order hpc hlt hfind hexec =>
    have hm := hok.not_met hpc hlt hfind hexec
    rw [hpc] at h
    obtain ⟨⟨c₀, s, t, hrun, halike, hmirrors, hleft⟩, hiterator, hsmall⟩ := h
    rw [Map.rest_next (hiterator k rfl)] at hleft
    change looked candle _ (t.update_order candle k) = _ at hleft
    rw [hmirrors.passes (Map.mem_of_find hfind) hm] at hleft
    simp only [heard, hpc, hlt, if_true, List.append_nil]
    exact ⟨⟨c₀, s, t, hrun, halike, hmirrors, hleft⟩, fun j hj => (Map.next_mem hj).1, hsmall⟩
  | @trade k last candle order hpc hlt hfind hexec =>
    rw [hpc] at h
    obtain ⟨⟨c₀, s, t, hrun, halike, hmirrors, hleft⟩, hiterator, hsmall⟩ := h
    have hk := hiterator k rfl
    rw [Map.rest_next hk] at hleft
    simp only [heard, hpc, hlt, if_true, List.append_nil]
    exact ⟨⟨c₀, s, _, hrun, halike, hmirrors.fills (Map.mem_of_find hfind) hexec.1, hleft⟩, hk,
      hsmall⟩
  | lost hpc hmem =>
    rcases hpc with ⟨hpc, _⟩ | hpc <;> rw [hpc] at h
    · exact absurd (h.2.1 _ rfl) hmem
    · exact absurd h.2.1 hmem
  | @report k last candle hpc =>
    -- The strategy ignores the fill.
    rw [hpc] at h
    have hrun : run BacktestBroker (S.on_order_filled k r.strategy) r.context =
        (.ok r.strategy, r.context) := by
      rw [hsilent, run_ret]
    rw [callback_ok hrun, heard, hpc, List.append_nil]
    exact h
  | @forget k last candle hpc hk =>
    rw [hpc] at h
    obtain ⟨hlooking, _, hsmall⟩ := h
    rw [← Map.rest_erase hk] at hlooking
    rw [heard, hpc, List.append_nil]
    exact ⟨hlooking, fun j hj => Map.mem_keys_erase.mpr (Map.next_mem hj),
      fun j hj => hsmall j (Map.mem_keys_erase.mp hj).1⟩
  | @update candle hpc =>
    rw [hpc] at h
    rw [NeverRefuses, hpc] at hok
    obtain ⟨s, hrun, halike⟩ := h
    rcases hprog : run BacktestBroker (S.update candle r.strategy) r.context with
      ⟨fault | strategy, c⟩
    · rw [callback_error hprog]
      trivial
    · rw [callback_ok hprog, heard, hpc]
      obtain ⟨s', hrun', halike'⟩ := halike.follows hok hprog
      exact ⟨s', hrun.append hrun', halike'⟩

/-- The two engines go through every run of plain orders alike. The strategy places and cancels
in its constructor and in `update`, and it ignores the fills. The actions that the run stands
for, in order, are a run of the new engine, and whenever a candle is done, before and after the
commands that follow it, the accounts are the same and the old engine holds the orders that are
new in the new engine. -/
theorem the_engines_agree_on_plain_orders (S : IStrategy σ)
    (hsilent : ∀ index s, S.on_order_filled index s = .ret s) (account : Account)
    (candles : List Candle) (setup : StrategyProg σ) (strategy : σ) (c : BacktestContext)
    (hplaced : Obeys BacktestBroker NamesPlaced setup
      { account_ := account, commission_ := 1 / 10000 })
    (hsetup : run BacktestBroker setup
      { account_ := account, commission_ := 1 / 10000 } = (.ok strategy, c))
    (log : List BacktestEngine.Action) (r : BacktestRun σ)
    (h : Emits (Where (Step S) (NeverRefuses S)) (heard S)
      { data_loader := candles, context := c, strategy := strategy } log r)
    (hpc : r.pc = .next ∨ ∃ candle, r.pc = .swept candle) :
    ∃ s, BacktestEngine.Run (BacktestEngine.init account.position account.balance)
        (actions (trace BacktestBroker setup
          { account_ := account, commission_ := 1 / 10000 }) ++ log) s ∧
      r.context.account_.balance = s.quote_ ∧ r.context.account_.position = s.base_ ∧
      ∀ k, k ∈ r.context.orders_.keys ↔ s.status? k = some .kNew := by
  obtain ⟨s₀, hrun₀, halike₀⟩ := (alike_start account).follows hplaced hsetup
  have hpaired := h.invariant (p := fun log r => Paired s₀ log r) (l := [])
    (fun log r a r' hstep hr => paired_step hsilent hstep.1 hstep.2 hr) ⟨s₀, .nil s₀, halike₀⟩
  rw [List.nil_append] at hpaired
  have hend : ∃ s, BacktestEngine.Run s₀ log s ∧ Alike r.context s := by
    unfold Paired at hpaired
    rcases hpc with hpc | ⟨candle, hpc⟩ <;> rw [hpc] at hpaired <;> exact hpaired
  obtain ⟨s, hrun, halike⟩ := hend
  exact ⟨s, hrun₀.append hrun, halike.mirrors.quote, halike.mirrors.base, halike.mirrors.key⟩

instance (op : BrokerCall) (c : BacktestContext) : Decidable (NamesPlaced op c) :=
  match op with
  | .place _ => instDecidableTrue
  | .cancel _ => Nat.decLt _ _
  | .account => instDecidableTrue

instance (S : IStrategy σ) (r : BacktestRun σ) (a : Unit) : Decidable (r.NeverRefuses S a) := by
  unfold NeverRefuses
  rcases r.pc with _ | ⟨_ | _, _, _⟩ | _ | _ | _ | _ <;> infer_instance

/-- A strategy that starts with two buys, and after its first candle cancels the first one, which
has filled, and sells a half. -/
def two_buys_and_a_sell : IStrategy Bool where
  update := fun _ first => do
    if first then
      IBroker.cancel 0
      let _ ← IBroker.limit_sell_order (1 / 2) 110
    return false
  on_order_filled := fun _ first => .ret first

def two_buys : StrategyProg Bool := do
  let _ ← IBroker.limit_buy_order 1 100
  let _ ← IBroker.limit_buy_order 1 50
  return true

def after_two_buys : BacktestRun Bool where
  data_loader := [flat_candle 100, flat_candle 110]
  context := {
    account_ := { balance := 1000, position := 0 }
    commission_ := 1 / 10000
    orders_ := ⟨[(0, .limit_buy_order 1 100), (1, .limit_buy_order 1 50)], by decide⟩
    last_order_index_ := 2 }
  strategy := true

/-- The first buy fills on the first candle and the sell on the second one. The second buy stays
open. -/
theorem two_buys_and_a_sell_agree :
    ∃ (log : List BacktestEngine.Action) (r : BacktestRun Bool) (s : BacktestEngine),
      Emits (Where (Step two_buys_and_a_sell) (NeverRefuses two_buys_and_a_sell))
        (heard two_buys_and_a_sell) after_two_buys log r ∧
      r.pc = .swept (flat_candle 110) ∧ r.context.orders_.keys = [1] ∧
      BacktestEngine.Run (BacktestEngine.init 0 1000)
        (actions [⟨.place (.limit_buy_order 1 100), (0 : ℕ)⟩,
          ⟨.place (.limit_buy_order 1 50), (1 : ℕ)⟩] ++ log) s ∧
      r.context.account_.balance = s.quote_ ∧ r.context.account_.position = s.base_ ∧
      ∀ k, k ∈ r.context.orders_.keys ↔ s.status? k = some .kNew := by
  have h : ((replay_log (fun r _ => r.step two_buys_and_a_sell) (heard two_buys_and_a_sell)
      (NeverRefuses two_buys_and_a_sell) (List.replicate 13 ()) after_two_buys).any
        fun x =>
          x.2.pc = .swept (flat_candle 110) ∧ x.2.context.orders_.keys = [1]) = true := by
    decide +kernel
  obtain ⟨⟨log, r⟩, hreplay, hout⟩ := (Option.any_eq_true _ _).mp h
  obtain ⟨hpc, hkeys⟩ := of_decide_eq_true hout
  obtain ⟨s, hrun, hsame⟩ := the_engines_agree_on_plain_orders two_buys_and_a_sell
    (fun _ _ => rfl) { balance := 1000, position := 0 } [flat_candle 100, flat_candle 110]
    two_buys true _ (by decide) rfl log r (emits_of_replay (fun _ _ _ h => h) hreplay)
    (Or.inr ⟨_, hpc⟩)
  exact ⟨log, r, s, emits_of_replay (fun _ _ _ h => h) hreplay, hpc, hkeys, hrun, hsame⟩

end BacktestRun

end wedge
