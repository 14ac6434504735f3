-- The laws of the order book and of the ledger. The book stays coherent in every
-- run, and the ledger is the sum of the fills. A filled order stays filled, and
-- the statuses account for the money, unless a cancel names a filled order.
import Wedge.Backtest2.Sweep

namespace wedge.backtest2

namespace BacktestEngine

/-! ## The ledger -/

/-- The accounts hold their first values and what the fills brought. -/
def Balanced (base quote : ℚ) (s : BacktestEngine) : Prop :=
  s.base_ = base + (s.fills.map fun f => base_delta f.2).sum ∧
    s.quote_ = quote + (s.fills.map fun f => quote_delta f.2).sum

theorem balanced_filled {base quote : ℚ} {s : BacktestEngine} (id : ℕ) (o : OrderBase)
    (event : FillOrderEvent) (h : Balanced base quote s) :
    Balanced base quote (s.filled id o event) := by
  obtain ⟨h1, h2⟩ := h
  refine ⟨?_, ?_⟩
  · rw [filled_fills, List.map_append, List.sum_append]
    simp [filled, h1, add_assoc]
  · rw [filled_fills, List.map_append, List.sum_append]
    simp [filled, h2, add_assoc]

/-- Every fill event is the fill event of its order on some candle. -/
def FillsTrue (s : BacktestEngine) : Prop :=
  ∀ f ∈ s.fills, ∃ o candle, s.orders_[f.1]? = some o ∧ f.2 = o.fill_event candle

theorem FillsTrue.grows {s t : BacktestEngine} (h : FillsTrue s) (hg : Grows s t)
    (hf : ∀ f ∈ t.fills, f ∈ s.fills ∨
      ∃ o candle, s.orders_[f.1]? = some o ∧ f.2 = o.fill_event candle) : FillsTrue t := by
  intro f hft
  obtain ⟨o, candle, ho, he⟩ := (hf f hft).elim (h f) id
  obtain ⟨st, hst⟩ := hg.order f.1 o ho
  exact ⟨_, candle, hst, he⟩

theorem fillsTrue_update_order {s : BacktestEngine} (hw : Wired s) (candle : Candle) (id : ℕ)
    (h : FillsTrue s) : FillsTrue (s.update_order candle id) := by
  apply h.grows (grows_update_order hw candle id)
  rcases update_order_cases hw candle id with ⟨o, ho, _, _, he⟩ | ⟨_, he⟩
  · rw [he, filled_fills]
    intro f hf
    rcases List.mem_append.mp hf with hf | hf
    · exact Or.inl hf
    · rw [List.mem_singleton.mp hf]
      exact Or.inr ⟨o, candle, ho, rfl⟩
  · rw [he]
    exact fun f hf => Or.inl hf

theorem execute_fills (s : BacktestEngine) (c : Command) :
    (s.execute c).fills = s.fills ∧ (s.execute c).base_ = s.base_ ∧
      (s.execute c).quote_ = s.quote_ := by
  rcases execute_cases s c with he | ⟨_, o, rest, lists, he, _⟩ <;> rw [he] <;>
    exact ⟨rfl, rfl, rfl⟩

theorem ledger_step {base quote : ℚ} {s s' : BacktestEngine} {a : Action} (hstep : Step s a s')
    (hs : Sound s) (h : Balanced base quote s ∧ FillsTrue s) :
    Balanced base quote s' ∧ FillsTrue s' := by
  cases hstep with
  | @command c _ =>
    obtain ⟨h1, h2, h3⟩ := execute_fills s c
    refine ⟨by unfold Balanced; rw [h1, h2, h3]; exact h.1, ?_⟩
    exact h.2.grows (grows_execute s c) (fun f hf => Or.inl (h1 ▸ hf))
  | candle hrun =>
    obtain ⟨t, rfl, _, ht⟩ := sweep_keeps
      (p := fun t => Balanced base quote t ∧ FillsTrue t)
      (by
        rintro t id hst _ ⟨hb, hf⟩
        refine ⟨?_, fillsTrue_update_order hst.wired _ id hf⟩
        exact turn_of_fill hst.wired (fun o _ _ _ => balanced_filled id o _ hb) hb)
      hs h hrun
    exact ht

theorem ledger_run {base quote : ℚ} {s : BacktestEngine} {acts : List Action}
    (h : Run (init base quote) acts s) : Balanced base quote s ∧ FillsTrue s := by
  refine (h.invariant (p := fun t => Sound t ∧ Balanced base quote t ∧ FillsTrue t) ?_ ?_).2
  · rintro t a u hstep ⟨hs, hl⟩
    exact ⟨sound_step hstep hs, ledger_step hstep hs hl⟩
  · refine ⟨sound_init base quote, by simp [Balanced, init, fills], ?_⟩
    intro f hf
    simp [init, fills] at hf

/-! ## The book stays coherent -/

/-- A coherent book. Every id in it is an order. The queue holds every new order, and no id
twice. The next sweep ends, and after it the queue holds exactly the new orders. No order has
sent two fill events, each event tells the quantity of its order and that quantity times the
price, and the ledger is the sum of the fills. -/
structure Coherent (base quote : ℚ) (s : BacktestEngine) : Prop where
  queue_valid : ∀ id ∈ s.new_orders_, id < s.orders_.length
  lists_valid : ∀ ids ∈ s.order_lists_, ∀ id ∈ ids, id < s.orders_.length
  links_valid : ∀ o ∈ s.orders_, ∀ id ∈ o.triggered_ ++ o.canceled_, id < s.orders_.length
  queue_once : ∀ id, s.new_orders_.count id ≤ 1
  new_queued : ∀ id, s.status? id = some .kNew → id ∈ s.new_orders_
  sweep_ends : ∀ candle, ∃ fuel s', s.update_new_orders fuel candle = some s'
  sweep_clean : ∀ candle fuel s', s.update_new_orders fuel candle = some s' →
    ∀ id, id ∈ s'.new_orders_ ↔ s'.status? id = some .kNew
  one_fill : ∀ id, s.fired.count id ≤ 1
  fill_true : ∀ f ∈ s.fills, ∃ o candle, s.orders_[f.1]? = some o ∧
    f.2 = { side := o.side_, base := o.quantity, quote := o.quantity * o.fill_price candle }
  base_sum : s.base_ = base + (s.fills.map fun f => base_delta f.2).sum
  quote_sum : s.quote_ = quote + (s.fills.map fun f => quote_delta f.2).sum

/-- The book and the ledger are coherent in every state of every run, in a debug build and in
a release build. -/
theorem the_book_stays_coherent (base quote : ℚ) (acts : List Action) (s : BacktestEngine)
    (h : Run (init base quote) acts s) : Coherent base quote s := by
  have hs := sound_of_run h
  obtain ⟨hb, hf⟩ := ledger_run h
  refine ⟨hs.queue_lt, hs.list_lt, ?_, List.nodup_iff_count_le_one.mp hs.queue_nodup,
    hs.new_queued, fun candle => ⟨_, sweep_returns hs candle⟩,
    fun candle fuel s' hrun => (sweep_exhausts hs hrun).2.1,
    List.nodup_iff_count_le_one.mp hs.fired_nodup, hf, hb.1, hb.2⟩
  intro o ho id hid
  obtain ⟨w, hw⟩ := List.getElem?_of_mem ho
  rcases List.mem_append.mp hid with h1 | h1
  · exact (hs.wired.child_lt w id (mem_children.mpr ⟨o, hw, h1⟩)).2
  · exact (hs.wired.rival_lt w id (mem_rivals.mpr ⟨o, hw, h1⟩)).1

/-- A bracket, a candle at 100 and a candle at 80, and a cancel. -/
def bracket_run : List Action :=
  [.command (.NewOrderList (.NewOtocoOrderList (.NewMarketOrder .kBuy 2)
      (.NewStopLossOrder .kSell 90 2) (.NewLimitOrder .kSell 110 2))),
    .candle (flat_candle 100), .candle (flat_candle 80), .command (.CancelOrderList 0)]

/-- The bracket is bought at 100 and leaves through its stop at 90. The state is coherent. -/
theorem the_book_stays_coherent_on_a_bracket :
    ∃ s, Run (init 10 1000) bracket_run s ∧ Coherent 10 1000 s ∧
      s.fills = [(0, { side := .kBuy, base := 2, quote := 200 }),
        (1, { side := .kSell, base := 2, quote := 180 })] := by
  have hrun : (replay (fun _ _ => True) 9 bracket_run (init 10 1000)).map fills =
      some [(0, { side := .kBuy, base := 2, quote := 200 }),
        (1, { side := .kSell, base := 2, quote := 180 })] := by decide +kernel
  obtain ⟨s, hs, hfills⟩ := Option.map_eq_some_iff.mp hrun
  have h := (run_of_replay _ hs).forget
  exact ⟨s, h, the_book_stays_coherent 10 1000 bracket_run s h, hfills⟩

/-! ## Filled orders and the money -/

/-- The action is no cancel that names a filled order. -/
def SparesFilled (s : BacktestEngine) : Action → Prop
  | .command c => ∀ id ∈ s.named c, s.status? id ≠ some .kFilled
  | .candle _ => True

/-- Every order that is filled in the first state is filled in the second. -/
def KeepsFilled (s s' : BacktestEngine) : Prop :=
  ∀ id, s.status? id = some .kFilled → s'.status? id = some .kFilled

/-- The linked cancel of a fill and the trigger of a fill never hit a filled order. -/
theorem filled_keeps {s : BacktestEngine} {id : ℕ} {o : OrderBase} (event : FillOrderEvent)
    (h : Sound s) (ho : s.orders_[id]? = some o) (hnew : s.status? id = some .kNew) :
    KeepsFilled s (s.filled id o event) := by
  intro j hj
  have hfired := h.filled_fired j hj
  rcases filled_status_cases event h.wired ho j with ⟨h1, _⟩ | ⟨h1, _⟩ | ⟨rfl, _⟩ | ⟨_, _, _, h1⟩
  · exact absurd hfired (h.rival_not_fired hnew h1)
  · exact absurd hfired (h.waiting id j h1 (h.not_fired_of_new hnew)).2.1
  · rw [hnew] at hj; cases hj
  · rw [h1, hj]

theorem update_order_keeps {s : BacktestEngine} (candle : Candle) (id : ℕ) (h : Sound s) :
    KeepsFilled s (s.update_order candle id) :=
  turn_of_fill h.wired (fun _ ho hnew _ => filled_keeps _ h ho hnew) fun _ h1 => h1

/-- A command keeps the filled orders exactly when it names none of them. -/
theorem execute_keeps_iff (s : BacktestEngine) (c : Command) :
    KeepsFilled s (s.execute c) ↔ SparesFilled s (.command c) := by
  rcases execute_cases s c with he | ⟨hn, o, rest, lists, he, _⟩
  · rw [he]
    constructor
    · intro h id hid hst
      have h1 := h id hst
      rw [canceled_status?, hst, Option.map_some, if_pos hid] at h1
      cases h1
    · intro h id hst
      have hid : id ∉ s.named c := fun h1 => h id h1 hst
      rw [canceled_status?, hst, Option.map_some, if_neg hid]
  · rw [he, SparesFilled, hn]
    refine ⟨by simp, fun _ id hst => ?_⟩
    rw [placed_status_old lists _ (status?_lt hst)]
    exact hst

theorem keeps_run {s s' : BacktestEngine} {acts : List Action}
    (h : runs.Run (runs.Where Step SparesFilled) s acts s') (hs : Sound s) : KeepsFilled s s' :=
  run_spans (r := KeepsFilled) (fun _ _ h1 => h1) (fun _ _ _ h1 h2 id hid => h2 id (h1 id hid))
    (fun _ candle id ht => update_order_keeps candle id ht) (fun _ _ h1 => h1)
    (fun s c _ _ hok => (execute_keeps_iff s c).mpr hok) h hs

/-- Every order that has sent a fill event is still filled. -/
def Settled (s : BacktestEngine) : Prop := ∀ x ∈ s.fired, s.status? x = some .kFilled

theorem settled_update_order {s : BacktestEngine} (candle : Candle) (id : ℕ) (h : Sound s)
    (hset : Settled s) : Settled (s.update_order candle id) := by
  have hkeep := update_order_keeps candle id h
  rcases update_order_cases h.wired candle id with ⟨o, ho, hnew, _, he⟩ | ⟨_, he⟩
  · rw [he] at hkeep ⊢
    intro x hx
    rw [filled_fired, List.mem_append, List.mem_singleton] at hx
    rcases hx with hx | rfl
    · exact hkeep x (hset x hx)
    · rcases filled_status_cases (o.fill_event candle) h.wired ho x with
        ⟨h1, _⟩ | ⟨h1, _⟩ | ⟨_, h1⟩ | ⟨_, _, h1, _⟩
      · exact absurd rfl (h.wired.rival_lt x x h1).2
      · exact absurd h1 h.wired.not_self_child
      · exact h1
      · exact absurd rfl h1
  · rw [he]
    exact hset

theorem settled_step {s s' : BacktestEngine} {a : Action}
    (hstep : runs.Where Step SparesFilled s a s') (hs : Sound s) (hset : Settled s) :
    Settled s' := by
  obtain ⟨hstep, hok⟩ := hstep
  cases hstep with
  | @command c _ =>
    intro x hx
    have hf : (s.execute c).fired = s.fired := by unfold fired; rw [(execute_fills s c).1]
    exact (execute_keeps_iff s c).mpr hok x (hset x (hf ▸ hx))
  | candle hrun =>
    obtain ⟨t, rfl, _, ht⟩ := sweep_keeps (p := Settled)
      (fun t id hst _ h1 => settled_update_order _ id hst h1) hs hset hrun
    exact ht

/-- The statuses account for the money: each filled order has one fill event, and the ledger
is the sum of the events of the orders that are filled now. -/
structure Accounted (base quote : ℚ) (s : BacktestEngine) : Prop where
  one_event : ∀ id, s.status? id = some .kFilled ↔ ∃ event, (id, event) ∈ s.fills
  once : ∀ id, s.fired.count id ≤ 1
  base_sum : s.base_ = base +
    ((s.fills.filter fun f => s.is_status f.1 .kFilled).map fun f => base_delta f.2).sum
  quote_sum : s.quote_ = quote +
    ((s.fills.filter fun f => s.is_status f.1 .kFilled).map fun f => quote_delta f.2).sum

theorem mem_fired {s : BacktestEngine} {id : ℕ} :
    id ∈ s.fired ↔ ∃ event, (id, event) ∈ s.fills := by
  simp [fired]

theorem accounted_of_settled {base quote : ℚ} {s : BacktestEngine} (hs : Sound s)
    (hset : Settled s) (hb : Balanced base quote s) : Accounted base quote s := by
  have hall : s.fills.filter (fun f => s.is_status f.1 .kFilled) = s.fills := by
    rw [List.filter_eq_self]
    intro f hf
    rw [is_status_eq]
    exact hset f.1 (mem_fired.mpr ⟨f.2, hf⟩)
  refine ⟨fun id => ?_, List.nodup_iff_count_le_one.mp hs.fired_nodup, ?_, ?_⟩
  · rw [← mem_fired]
    exact ⟨hs.filled_fired id, hset id⟩
  · rw [hall]; exact hb.1
  · rw [hall]; exact hb.2

/-- In every run whose cancels name no filled order, a filled order stays filled and the
statuses account for the money. The condition is exact: a command that names a filled order
is one that takes it back. -/
theorem filled_orders_stay_unless_a_cancel_names_them (base quote : ℚ) (acts later : List Action)
    (s s' : BacktestEngine)
    (h : runs.Run (runs.Where Step SparesFilled) (init base quote) acts s)
    (h' : runs.Run (runs.Where Step SparesFilled) s later s') :
    (∀ id, s.status? id = some .kFilled → s'.status? id = some .kFilled) ∧
      Accounted base quote s' ∧
      ∀ c, (∀ id, s'.status? id = some .kFilled → (s'.execute c).status? id = some .kFilled) ↔
        ∀ id ∈ s'.named c, s'.status? id ≠ some .kFilled := by
  have hall := h.append h'
  have hset := (hall.invariant (p := fun t => Sound t ∧ Settled t)
    (fun _ _ _ hstep ht => ⟨sound_step hstep.1 ht.1, settled_step hstep ht.1 ht.2⟩)
    ⟨sound_init base quote, by intro x hx; simp [init, fired, fills] at hx⟩).2
  exact ⟨keeps_run h' (sound_of_run h.forget),
    accounted_of_settled (sound_of_run hall.forget) hset (ledger_run hall.forget).1,
    fun c => execute_keeps_iff s' c⟩

instance (s : BacktestEngine) (a : Action) : Decidable (SparesFilled s a) :=
  match a with
  | .command _ => List.decidableBAll _ _
  | .candle _ => .isTrue trivial

/-- A market buy of 2 units at the price 100. -/
def market_buy_run : List Action :=
  [.command (.NewOrder (.NewMarketOrder .kBuy 2)), .candle (flat_candle 100)]

/-- The engine after that buy, from 1000 of the quote. -/
def after_market_buy : BacktestEngine :=
  { base_ := 19998 / 10000
    quote_ := 800
    orders_ := [{ cls := .MarketOrder 2, side_ := .kBuy, status_ := .kFilled }]
    heard := [(0, .fill { side := .kBuy, base := 2, quote := 200 })] }

theorem filled_orders_stay_when_a_cancel_names_another_order :
    ∃ s', after_market_buy.status? 0 = some .kFilled ∧ s'.status? 0 = some .kFilled ∧
      Accounted 0 1000 s' := by
  have h : replay SparesFilled 9 market_buy_run (init 0 1000) = some after_market_buy := by
    decide +kernel
  obtain ⟨s', h'⟩ : ∃ s', replay SparesFilled 9 [.command (.NewOrder (.NewLimitOrder .kSell 120 1)),
      .command (.CancelOrder 1), .candle (flat_candle 130)] after_market_buy = some s' :=
    Option.isSome_iff_exists.mp (by decide +kernel)
  obtain ⟨hkeep, hacc, _⟩ := filled_orders_stay_unless_a_cancel_names_them 0 1000 _ _ _ _
    (run_of_replay _ h) (run_of_replay _ h')
  exact ⟨s', by decide +kernel, hkeep 0 (by decide +kernel), hacc⟩

/-- A cancel of the filled buy makes it `kCanceled`. The units of base stay, and no filled
order accounts for them. -/
theorem a_cancel_takes_a_filled_order_back :
    ∃ s', Run (init 0 1000) market_buy_run after_market_buy ∧
      Run after_market_buy [.command (.CancelOrder 0)] s' ∧
      after_market_buy.status? 0 = some .kFilled ∧ s'.status? 0 = some .kCanceled ∧
      s'.base_ = 19998 / 10000 ∧ ¬ Accounted 0 1000 s' := by
  have h : replay (fun _ _ => True) 9 market_buy_run (init 0 1000) = some after_market_buy := by
    decide +kernel
  have h' : replay (fun _ _ => True) 9 [.command (.CancelOrder 0)] after_market_buy =
      some (after_market_buy.canceled [0]) := by decide +kernel
  refine ⟨_, (run_of_replay _ h).forget, (run_of_replay _ h').forget, by decide +kernel,
    by decide +kernel, rfl, fun hacc => ?_⟩
  have hfill := (hacc.one_event 0).mpr ⟨{ side := .kBuy, base := 2, quote := 200 },
    by decide +kernel⟩
  exact absurd hfill (by decide +kernel)

end BacktestEngine

end wedge.backtest2
