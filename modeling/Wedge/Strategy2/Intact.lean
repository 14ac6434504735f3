-- The strategy and the engine together: every bracket of the strategy is in one
-- of five states, and at most one of them waits for its buy.
import Wedge.Backtest2.Sweep
import Wedge.Strategy2.Strategy001

namespace wedge.strategy2

open backtest2 BacktestEngine

/-! ## The states of a bracket -/

/-- No order of the bracket has filled yet. -/
def waiting : List (Option OrderStatus) := [some .kNew, some .kPendingNew, some .kPendingNew]

def gone : List (Option OrderStatus) := [some .kCanceled, some .kCanceled, some .kCanceled]

def bought : List (Option OrderStatus) := [some .kFilled, some .kNew, some .kNew]

def stopped : List (Option OrderStatus) := [some .kFilled, some .kFilled, some .kCanceled]

def sold : List (Option OrderStatus) := [some .kFilled, some .kCanceled, some .kFilled]

/-- The five states of a bracket. -/
def states : List (List (Option OrderStatus)) := [waiting, gone, bought, stopped, sold]

/-! ## The runs -/

structure Trading where
  engine : BacktestEngine
  strategy : Strategy001
  deriving DecidableEq, Repr

inductive TradingAction
  | candle (candle : Candle)
  | event (event : ScheduleTaskEvent)
  deriving DecidableEq, Repr

/-- The list with the current statuses of its orders. -/
def report (s : BacktestEngine) (order_list_id : ℕ) (ids : List ℕ) : OrderList where
  order_list_id := order_list_id
  orders := ids.filterMap fun id => (s.status? id).map fun status =>
    { order_id := id, order_list_id := some order_list_id, status := status }

/-- The event reports the current statuses of some lists. -/
def Reports (s : BacktestEngine) (event : ScheduleTaskEvent) : Prop :=
  ∀ list ∈ event.open_order_lists, ∃ ids, s.order_lists_[list.order_list_id]? = some ids ∧
    list = report s list.order_list_id ids

namespace Trading

def start (base quote : ℚ) : Trading :=
  { engine := init base quote, strategy := Strategy001.from_json }

def on_event (event : ScheduleTaskEvent) (s : Trading) : Trading :=
  let (commands, strategy) := s.strategy.on_event event
  { engine := commands.foldl (fun engine command => engine.execute command) s.engine
    strategy := strategy }

/-- `BacktestEngine::run`, which makes the events, has no body in the source. An event may come
after any step and may report any lists. -/
inductive Step : Trading → TradingAction → Trading → Prop
  | candle {s : Trading} {engine : BacktestEngine} {candle : Candle} {fuel : ℕ} :
      s.engine.update_new_orders fuel candle = some engine →
      Step s (.candle candle) { s with engine := engine }
  | event {s : Trading} {event : ScheduleTaskEvent} :
      Reports s.engine event → Step s (.event event) (s.on_event event)

/-- Every event of the run reports at least the lists that wait for their buy. -/
def ReportsWaiting (s : Trading) : TradingAction → Prop
  | .candle _ => True
  | .event event => ∀ k ids, s.engine.order_lists_[k]? = some ids →
      ids.map s.engine.status? = waiting →
      k ∈ event.open_order_lists.map OrderList.order_list_id

end Trading

/-! ## The book of the strategy -/

/-- The statuses of the orders of list `k`, when every list has three orders. -/
def triple (s : BacktestEngine) (k : ℕ) : List (Option OrderStatus) :=
  [s.status? (3 * k), s.status? (3 * k + 1), s.status? (3 * k + 2)]

/-- The book of the strategy: list `k` holds the orders from `3 * k` on, with the links of a
bracket and in one of the five states, and no assertion has failed. -/
structure Brackets (s : BacktestEngine) : Prop where
  sound : Sound s
  length : s.orders_.length = 3 * s.order_lists_.length
  lists : ∀ k < s.order_lists_.length, s.order_lists_[k]? = some [3 * k, 3 * k + 1, 3 * k + 2]
  children : ∀ k < s.order_lists_.length, s.children (3 * k) = [3 * k + 1, 3 * k + 2] ∧
    s.children (3 * k + 1) = [] ∧ s.children (3 * k + 2) = []
  rivals : ∀ k < s.order_lists_.length, s.rivals (3 * k) = [] ∧
    s.rivals (3 * k + 1) = [3 * k + 2] ∧ s.rivals (3 * k + 2) = [3 * k + 1]
  state : ∀ k < s.order_lists_.length, triple s k ∈ states
  failed : s.failed = []

theorem brackets_init (base quote : ℚ) : Brackets (init base quote) := by
  refine ⟨sound_init base quote, rfl, ?_, ?_, ?_, ?_, rfl⟩ <;>
    exact fun k hk => absurd hk (Nat.not_lt_zero k)

/-! ## One fill -/

section fill

variable {s : BacktestEngine} {id k : ℕ} {o : OrderBase}

/-- An order of a bracket is linked with orders of its own bracket only. -/
theorem Brackets.linked (h : Brackets s) (hk : k < s.order_lists_.length) {r : ℕ} (hr : r < 3)
    {j : ℕ} (hj : j ∈ s.children (3 * k + r) ∨ j ∈ s.rivals (3 * k + r)) : j / 3 = k := by
  obtain ⟨h1, h2, h3⟩ := h.children k hk
  obtain ⟨h4, h5, h6⟩ := h.rivals k hk
  rcases (by omega : r = 0 ∨ r = 1 ∨ r = 2) with rfl | rfl | rfl <;>
    simp only [Nat.add_zero, h1, h2, h3, h4, h5, h6, List.mem_cons, List.not_mem_nil, or_false,
      false_or] at hj <;> omega

theorem Brackets.list_of_order (h : Brackets s) (ho : s.orders_[id]? = some o) :
    id / 3 < s.order_lists_.length := by
  have := (List.getElem?_eq_some_iff.mp ho).1
  have := h.length
  omega

/-- A fill changes its own bracket only. -/
theorem triple_filled_other (event : FillOrderEvent) (h : Brackets s)
    (ho : s.orders_[id]? = some o) (hne : id / 3 ≠ k) :
    triple (s.filled id o event) k = triple s k := by
  have hid := h.list_of_order ho
  have hsame : ∀ r < 3, (s.filled id o event).status? (3 * k + r) = s.status? (3 * k + r) := by
    intro r hr
    have hdiv : id = 3 * (id / 3) + id % 3 := by omega
    have hlink := fun j => h.linked hid (Nat.mod_lt id (by omega : 0 < 3)) (j := j)
    rw [← hdiv] at hlink
    apply filled_status_other event ho
    · intro hj
      have := hlink _ (Or.inr hj)
      omega
    · intro hj
      have := hlink _ (Or.inl hj)
      omega
    · omega
  unfold triple
  rw [hsame 1 (by omega), hsame 2 (by omega)]
  have := hsame 0 (by omega)
  rw [Nat.add_zero] at this
  rw [this]

/-- The bracket of the order that fills goes from one state to the next. -/
theorem triple_filled_self (event : FillOrderEvent) (h : Brackets s)
    (ho : s.orders_[3 * k + id]? = some o) (hid : id < 3) (hk : k < s.order_lists_.length)
    (hnew : s.status? (3 * k + id) = some .kNew) :
    (id = 0 ∧ triple s k = waiting ∧ triple (s.filled (3 * k + id) o event) k = bought) ∨
    (id = 1 ∧ triple s k = bought ∧ triple (s.filled (3 * k + id) o event) k = stopped) ∨
    (id = 2 ∧ triple s k = bought ∧ triple (s.filled (3 * k + id) o event) k = sold) := by
  have hw := h.sound.wired
  obtain ⟨hc0, hc1, hc2⟩ := h.children k hk
  obtain ⟨hr0, hr1, hr2⟩ := h.rivals k hk
  have hstate := h.state k hk
  simp only [states, triple, waiting, gone, bought, stopped, sold, List.mem_cons,
    List.not_mem_nil, or_false, List.cons.injEq, and_true] at hstate
  have hself := filled_status_self event hw ho
  rcases (by omega : id = 0 ∨ id = 1 ∨ id = 2) with rfl | rfl | rfl
  · -- The buy: it triggers the two sells.
    rw [Nat.add_zero] at *
    have h1 := filled_status_child event hw ho (j := 3 * k + 1) (by simp [hc0])
    have h2 := filled_status_child event hw ho (j := 3 * k + 2) (by simp [hc0])
    left
    simp only [triple, waiting, bought, hself, h1, h2, true_and, and_true]
    rcases hstate with h3 | h3 | h3 | h3 | h3 <;> simp_all
  · -- The stop: it cancels the limit sell.
    have h0 := filled_status_other event ho (j := 3 * k) (by simp [hr1]) (by simp [hc1]) (by omega)
    have h2 := filled_status_rival event hw ho (j := 3 * k + 2) (by simp [hr1])
    right; left
    simp only [triple, bought, stopped, hself, h0, h2, true_and]
    rcases hstate with h3 | h3 | h3 | h3 | h3 <;> simp_all
  · -- The limit sell: it cancels the stop.
    have h0 := filled_status_other event ho (j := 3 * k) (by simp [hr2]) (by simp [hc2]) (by omega)
    have h1 := filled_status_rival event hw ho (j := 3 * k + 1) (by simp [hr2])
    right; right
    simp only [triple, bought, sold, hself, h0, h1, true_and]
    rcases hstate with h3 | h3 | h3 | h3 | h3 <;> simp_all

/-- The bracket of an order that fills. -/
theorem Brackets.fill_cases (event : FillOrderEvent) (h : Brackets s)
    (ho : s.orders_[id]? = some o) (hnew : s.status? id = some .kNew) :
    (id % 3 = 0 ∧ triple s (id / 3) = waiting ∧
      triple (s.filled id o event) (id / 3) = bought) ∨
    (id % 3 = 1 ∧ triple s (id / 3) = bought ∧
      triple (s.filled id o event) (id / 3) = stopped) ∨
    (id % 3 = 2 ∧ triple s (id / 3) = bought ∧
      triple (s.filled id o event) (id / 3) = sold) := by
  have hid : 3 * (id / 3) + id % 3 = id := Nat.div_add_mod id 3
  have ho' : s.orders_[3 * (id / 3) + id % 3]? = some o := by rwa [hid]
  have hcase := triple_filled_self event h ho' (Nat.mod_lt id (by omega)) (h.list_of_order ho)
    (by rwa [hid])
  rwa [hid] at hcase

/-- The children of the buy are pending, and the sells have no children. -/
theorem Brackets.failed_filled (event : FillOrderEvent) (h : Brackets s)
    (ho : s.orders_[id]? = some o) (hnew : s.status? id = some .kNew) :
    (s.filled id o event).failed = [] := by
  have hid : id = 3 * (id / 3) + id % 3 := (Nat.div_add_mod id 3).symm
  obtain ⟨hc0, hc1, hc2⟩ := h.children _ (h.list_of_order ho)
  have hpending : ∀ j ∈ o.triggered_, s.status? j = some .kPendingNew := by
    intro j hj
    rw [← children_of_get ho, hid] at hj
    rcases h.fill_cases event ho hnew with ⟨hr, h1, _⟩ | ⟨hr, _⟩ | ⟨hr, _⟩ <;> rw [hr] at hj
    · rw [Nat.add_zero, hc0] at hj
      simp only [triple, waiting, List.cons.injEq, and_true] at h1
      simp only [List.mem_cons, List.not_mem_nil, or_false] at hj
      rcases hj with rfl | rfl
      · exact h1.2.1
      · exact h1.2.2
    · rw [hc1] at hj
      cases hj
    · rw [hc2] at hj
      cases hj
  have hnone : o.triggered_.filter (fun j => !s.is_status j .kPendingNew) = [] := by
    rw [List.filter_eq_nil_iff]
    intro j hj
    simp [(is_status_eq s j .kPendingNew).mpr (hpending j hj)]
  simp [filled, hnone, h.failed]

theorem brackets_filled (event : FillOrderEvent) (h : Brackets s) (ho : s.orders_[id]? = some o)
    (hnew : s.status? id = some .kNew) :
    Brackets (s.filled id o event) ∧
      ∀ k < s.order_lists_.length, triple (s.filled id o event) k = waiting →
        triple s k = waiting := by
  have hcase := h.fill_cases event ho hnew
  have hother := fun k => triple_filled_other (k := k) event h ho
  refine ⟨⟨sound_filled event h.sound ho hnew, ?_, h.lists, ?_, ?_, ?_,
    h.failed_filled event ho hnew⟩, ?_⟩
  · rw [filled_length]
    exact h.length
  · intro k hk
    simpa only [filled_children] using h.children k hk
  · intro k hk
    simpa only [filled_rivals] using h.rivals k hk
  · intro k hk
    by_cases hkid : id / 3 = k
    · subst hkid
      rcases hcase with ⟨_, _, h1⟩ | ⟨_, _, h1⟩ | ⟨_, _, h1⟩ <;> rw [h1] <;> simp [states]
    · rw [hother k hkid]
      exact h.state k hk
  · intro k hk hwait
    by_cases hkid : id / 3 = k
    · subst hkid
      rcases hcase with ⟨_, _, h1⟩ | ⟨_, _, h1⟩ | ⟨_, _, h1⟩ <;> rw [h1] at hwait <;> cases hwait
    · rwa [hother k hkid] at hwait

end fill

/-! ## One sweep -/

theorem brackets_sweep {candle : Candle} {fuel : ℕ} {s s' : BacktestEngine} (h : Brackets s)
    (hrun : s.update_new_orders fuel candle = some s') :
    Brackets s' ∧ s'.order_lists_ = s.order_lists_ ∧
      ∀ k < s.order_lists_.length, triple s' k = waiting → triple s k = waiting := by
  obtain ⟨t, rfl, _, ht, hl, hwait⟩ := sweep_of_fills
    (p := fun t => Brackets t ∧ t.order_lists_ = s.order_lists_ ∧
      ∀ k < s.order_lists_.length, triple t k = waiting → triple s k = waiting)
    (by
      rintro t id o _ ho hnew _ ⟨ht, hl, hwait⟩
      obtain ⟨h1, h2⟩ := brackets_filled (o.fill_event candle) ht ho hnew
      exact ⟨h1, hl, fun k hk hk' => hwait k hk (h2 k (hl ▸ hk) hk')⟩)
    h.sound ⟨h, rfl, fun _ _ h1 => h1⟩ hrun
  exact ⟨⟨sound_remove_stale ht.sound, ht.length, ht.lists, ht.children, ht.rivals, ht.state,
    ht.failed⟩, hl, hwait⟩

/-! ## One event -/

theorem brackets_cancel {s : BacktestEngine} {k : ℕ} (h : Brackets s)
    (hk : k < s.order_lists_.length) :
    Brackets (s.execute (.CancelOrderList k)) ∧
      (s.execute (.CancelOrderList k)).order_lists_ = s.order_lists_ ∧
      ∀ j < s.order_lists_.length, triple (s.execute (.CancelOrderList k)) j =
        if j = k then gone else triple s j := by
  have hids : s.order_lists_.getD k [] = [3 * k, 3 * k + 1, 3 * k + 2] := by
    rw [List.getD_eq_getElem?_getD, h.lists k hk]
    rfl
  have he : s.execute (.CancelOrderList k) = s.canceled [3 * k, 3 * k + 1, 3 * k + 2] := by
    rw [← hids]
    exact execute_cancel_order_list_eq k s
  have htriple : ∀ j < s.order_lists_.length,
      triple (s.canceled [3 * k, 3 * k + 1, 3 * k + 2]) j = if j = k then gone else triple s j := by
    intro j hj
    have hlen := h.length
    obtain ⟨st0, h0⟩ := status?_of_lt (s := s) (j := 3 * j) (by omega)
    obtain ⟨st1, h1⟩ := status?_of_lt (s := s) (j := 3 * j + 1) (by omega)
    obtain ⟨st2, h2⟩ := status?_of_lt (s := s) (j := 3 * j + 2) (by omega)
    simp only [triple, canceled_status?, h0, h1, h2, Option.map_some, List.mem_cons,
      List.not_mem_nil, or_false]
    by_cases hjk : j = k
    · subst hjk
      simp [gone]
    · simp [hjk]
      omega
  rw [he]
  refine ⟨⟨sound_canceled _ h.sound, ?_, h.lists, ?_, ?_, ?_, h.failed⟩, rfl, htriple⟩
  · rw [canceled_length]
    exact h.length
  · intro j hj
    simpa only [canceled_children] using h.children j hj
  · intro j hj
    simpa only [canceled_rivals] using h.rivals j hj
  · intro j hj
    rw [htriple j hj]
    split
    · simp [states]
    · exact h.state j hj

theorem brackets_cancels {s : BacktestEngine} (ks : List ℕ) (h : Brackets s)
    (hks : ∀ k ∈ ks, k < s.order_lists_.length) :
    Brackets (ks.foldl (fun s k => s.execute (.CancelOrderList k)) s) ∧
      (ks.foldl (fun s k => s.execute (.CancelOrderList k)) s).order_lists_ = s.order_lists_ ∧
      ∀ j < s.order_lists_.length,
        triple (ks.foldl (fun s k => s.execute (.CancelOrderList k)) s) j =
          if j ∈ ks then gone else triple s j := by
  induction ks generalizing s with
  | nil => exact ⟨h, rfl, fun j _ => by simp⟩
  | cons k ks ih =>
    obtain ⟨h1, hl1, ht1⟩ := brackets_cancel h (hks k List.mem_cons_self)
    obtain ⟨h2, hl2, ht2⟩ := ih h1 fun j hj => by
      rw [hl1]
      exact hks j (List.mem_cons_of_mem k hj)
    refine ⟨h2, hl2.trans hl1, fun j hj => ?_⟩
    rw [List.foldl_cons, ht2 j (hl1 ▸ hj), ht1 j hj]
    by_cases hjk : j = k <;> simp [hjk]

/-- A new bracket waits for its buy. -/
theorem brackets_place {s t : BacktestEngine} {working above below : NewOrder} (h : Brackets s)
    (ht : t = s.execute (.NewOrderList (.NewOtocoOrderList working above below))) :
    Brackets t ∧ t.order_lists_.length = s.order_lists_.length + 1 ∧
      (∀ j < s.order_lists_.length, triple t j = triple s j) ∧
      triple t s.order_lists_.length = waiting := by
  have hlen := h.length
  have he : t = s.placed (list_batch s.orders_.length (.NewOtocoOrderList working above below))
      [list_ids s.orders_.length (.NewOtocoOrderList working above below)] :=
    ht.trans (execute_list_eq _ s)
  have hsound : Sound t := ht ▸ sound_execute _ h.sound
  have hget := execute_list_get s (.NewOtocoOrderList working above below)
  rw [← ht] at hget
  have h0 := hget 0
  have h1 := hget 1
  have h2 := hget 2
  simp only [hlen, list_batch, Nat.add_zero, List.getElem?_cons_zero,
    List.getElem?_cons_succ] at h0 h1 h2
  have hlists : t.order_lists_ = s.order_lists_ ++ [[3 * s.order_lists_.length,
      3 * s.order_lists_.length + 1, 3 * s.order_lists_.length + 2]] := by
    rw [he, ← hlen]
    rfl
  have hold : ∀ j < s.order_lists_.length, t.orders_[3 * j]? = s.orders_[3 * j]? ∧
      t.orders_[3 * j + 1]? = s.orders_[3 * j + 1]? ∧
      t.orders_[3 * j + 2]? = s.orders_[3 * j + 2]? := by
    intro j hj
    rw [he]
    refine ⟨?_, ?_, ?_⟩ <;> apply placed_get_old <;> omega
  have hsame : ∀ j < s.order_lists_.length, triple t j = triple s j := by
    intro j hj
    obtain ⟨h3, h4, h5⟩ := hold j hj
    simp only [triple, status?, h3, h4, h5]
  have hnew : triple t s.order_lists_.length = waiting := by
    simp [triple, status?_of_get h0, status?_of_get h1, status?_of_get h2, waiting]
  have hlength : t.order_lists_.length = s.order_lists_.length + 1 := by
    rw [hlists]
    simp
  refine ⟨⟨hsound, ?_, ?_, ?_, ?_, ?_, ?_⟩, hlength, hsame, hnew⟩
  · rw [hlength, he, placed_length, hlen]
    simp [list_batch]
    omega
  · intro k hk
    rw [hlists]
    rcases Nat.lt_succ_iff_lt_or_eq.mp (hlength ▸ hk) with hk | rfl
    · rw [List.getElem?_append_left hk]
      exact h.lists k hk
    · simp
  · intro k hk
    rcases Nat.lt_succ_iff_lt_or_eq.mp (hlength ▸ hk) with hk | rfl
    · obtain ⟨h3, h4, h5⟩ := hold k hk
      simp only [BacktestEngine.children, h3, h4, h5]
      exact h.children k hk
    · simp [children_of_get h0, children_of_get h1, children_of_get h2]
  · intro k hk
    rcases Nat.lt_succ_iff_lt_or_eq.mp (hlength ▸ hk) with hk | rfl
    · obtain ⟨h3, h4, h5⟩ := hold k hk
      simp only [BacktestEngine.rivals, h3, h4, h5]
      exact h.rivals k hk
    · simp [rivals_of_get h0, rivals_of_get h1, rivals_of_get h2]
  · intro k hk
    rcases Nat.lt_succ_iff_lt_or_eq.mp (hlength ▸ hk) with hk | rfl
    · rw [hsame k hk]
      exact h.state k hk
    · rw [hnew]
      simp [states]
  · rw [he]
    exact h.failed

/-- The lists that the event cancels. -/
def dropped (event : ScheduleTaskEvent) : List ℕ :=
  (event.open_order_lists.filter fun list => Strategy001.is_new_order list.orders).map
    OrderList.order_list_id

theorem on_event_engine (event : ScheduleTaskEvent) (s : Trading) :
    ∃ limit_price, (s.on_event event).engine =
      ((dropped event).foldl (fun s k => s.execute (.CancelOrderList k)) s.engine).execute
        (.NewOrderList (Strategy001.bracket limit_price)) := by
  simp only [Trading.on_event, Strategy001.on_event, Strategy001.cancels, dropped,
    List.foldl_append, List.foldl_map, List.foldl_cons, List.foldl_nil]
  exact ⟨_, rfl⟩

theorem dropped_lt {event : ScheduleTaskEvent} {s : BacktestEngine} (hr : Reports s event) :
    ∀ k ∈ dropped event, k < s.order_lists_.length := by
  intro k hk
  obtain ⟨list, hlist, rfl⟩ := List.mem_map.mp hk
  obtain ⟨ids, hids, _⟩ := hr list (List.mem_filter.mp hlist).1
  exact (List.getElem?_eq_some_iff.mp hids).1

/-- The strategy cancels every reported list that waits for its buy. -/
theorem mem_dropped {event : ScheduleTaskEvent} {s : BacktestEngine} {k : ℕ} (h : Brackets s)
    (hr : Reports s event) (hk : k ∈ event.open_order_lists.map OrderList.order_list_id)
    (hwait : triple s k = waiting) : k ∈ dropped event := by
  obtain ⟨list, hlist, rfl⟩ := List.mem_map.mp hk
  obtain ⟨ids, hids, he⟩ := hr list hlist
  have hlt := (List.getElem?_eq_some_iff.mp hids).1
  rw [h.lists _ hlt] at hids
  cases hids
  simp only [triple, waiting, List.cons.injEq, and_true] at hwait
  have hnew : Strategy001.is_new_order list.orders = true := by
    rw [he]
    simp [report, Strategy001.is_new_order, hwait]
  exact List.mem_map.mpr ⟨list, List.mem_filter.mpr ⟨hlist, hnew⟩, rfl⟩

/-! ## The runs keep the brackets -/

namespace Trading

theorem brackets_step {s s' : Trading} {a : TradingAction} (hstep : Step s a s')
    (h : Brackets s.engine) : Brackets s'.engine := by
  cases hstep with
  | candle hrun => exact (brackets_sweep h hrun).1
  | @event event hr =>
    obtain ⟨limit_price, he⟩ := on_event_engine event s
    obtain ⟨h1, _⟩ := brackets_cancels (dropped event) h (dropped_lt hr)
    exact (brackets_place h1 he).1

/-- At most one bracket waits for its buy. -/
def Single (s : BacktestEngine) : Prop :=
  ∀ j < s.order_lists_.length, ∀ k < s.order_lists_.length, triple s j = waiting →
    triple s k = waiting → j = k

theorem single_step {s s' : Trading} {a : TradingAction}
    (hstep : runs.Where Step ReportsWaiting s a s') (h : Brackets s.engine)
    (hsingle : Single s.engine) : Single s'.engine := by
  obtain ⟨hstep, hall⟩ := hstep
  cases hstep with
  | candle hrun =>
    obtain ⟨_, hl, hwait⟩ := brackets_sweep h hrun
    intro j hj k hk hj' hk'
    rw [hl] at hj hk
    exact hsingle j hj k hk (hwait j hj hj') (hwait k hk hk')
  | @event event hr =>
    obtain ⟨limit_price, he⟩ := on_event_engine event s
    obtain ⟨h1, hl, ht⟩ := brackets_cancels (dropped event) h (dropped_lt hr)
    obtain ⟨_, hlen, hold, _⟩ := brackets_place h1 he
    rw [hl] at hlen hold
    -- No old bracket waits any more.
    have hnone : ∀ j < s.engine.order_lists_.length,
        triple (s.on_event event).engine j ≠ waiting := by
      intro j hj hwait
      rw [hold j hj, ht j hj] at hwait
      split at hwait
      · cases hwait
      · rename_i hnot
        have hids := hall j _ (h.lists j hj) hwait
        exact hnot (mem_dropped h hr hids hwait)
    intro j hj k hk hj' hk'
    rw [hlen] at hj hk
    have hj2 : ¬ j < s.engine.order_lists_.length := fun hlt => hnone j hlt hj'
    have hk2 : ¬ k < s.engine.order_lists_.length := fun hlt => hnone k hlt hk'
    omega

theorem brackets_run {base quote : ℚ} {acts : List TradingAction} {s : Trading}
    (h : runs.Run Step (start base quote) acts s) : Brackets s.engine :=
  h.invariant (p := fun t => Brackets t.engine) (fun _ _ _ hstep ht => brackets_step hstep ht)
    (brackets_init base quote)

theorem single_run {base quote : ℚ} {acts : List TradingAction} {s : Trading}
    (h : runs.Run (runs.Where Step ReportsWaiting) (start base quote) acts s) :
    Single s.engine := by
  refine (h.invariant (p := fun t => Brackets t.engine ∧ Single t.engine)
    (fun _ _ _ hstep ht => ⟨brackets_step hstep.1 ht.1, single_step hstep ht.1 ht.2⟩) ?_).2
  exact ⟨brackets_init base quote, fun j hj => absurd hj (Nat.not_lt_zero j)⟩

/-! ## The law -/

theorem triple_of_ids {s : BacktestEngine} {k : ℕ} {ids : List ℕ} (h : Brackets s)
    (hids : s.order_lists_[k]? = some ids) :
    k < s.order_lists_.length ∧ ids.map s.status? = triple s k := by
  have hlt := (List.getElem?_eq_some_iff.mp hids).1
  rw [h.lists k hlt] at hids
  cases hids
  exact ⟨hlt, rfl⟩

/-- In every run of the strategy and the engine, each list is in one of the five states of a
bracket and no trigger finds an order that is not pending. If every event reports the lists
that wait for their buy, there is at most one such list. -/
theorem brackets_of_the_strategy_stay_intact (base quote : ℚ) :
    (∀ acts s, runs.Run Step (start base quote) acts s →
      (∀ ids ∈ s.engine.order_lists_, ids.map s.engine.status? ∈ states) ∧
        s.engine.failed = []) ∧
    ∀ acts s, runs.Run (runs.Where Step ReportsWaiting) (start base quote) acts s →
      ∀ (j k : ℕ) (ids ids' : List ℕ), s.engine.order_lists_[j]? = some ids →
        s.engine.order_lists_[k]? = some ids' →
        ids.map s.engine.status? = waiting → ids'.map s.engine.status? = waiting → j = k := by
  refine ⟨fun acts s h => ?_, fun acts s h j k ids ids' hj hk hj' hk' => ?_⟩
  · have hb := brackets_run h
    refine ⟨fun ids hids => ?_, hb.failed⟩
    obtain ⟨k, hk⟩ := List.getElem?_of_mem hids
    obtain ⟨hlt, he⟩ := triple_of_ids hb hk
    rw [he]
    exact hb.state k hlt
  · have hb := brackets_run h.forget
    obtain ⟨hlj, hej⟩ := triple_of_ids hb hj
    obtain ⟨hlk, hek⟩ := triple_of_ids hb hk
    exact single_run h j hlj k hlk (hej ▸ hj') (hek ▸ hk')

/-- An event with the candle and a report of the lists. -/
def event_at (price : ℚ) (s : BacktestEngine) : ScheduleTaskEvent where
  current_candle := flat_candle price
  open_order_lists := s.order_lists_.mapIdx (report s)

theorem reports_event_at (price : ℚ) (s : BacktestEngine) : Reports s (event_at price s) := by
  intro list hlist
  obtain ⟨k, hk, rfl⟩ := List.mem_mapIdx.mp hlist
  exact ⟨_, List.getElem?_eq_getElem hk, rfl⟩

theorem step_event_at (price : ℚ) (s : Trading) :
    runs.Where Step ReportsWaiting s (.event (event_at price s.engine))
      (s.on_event (event_at price s.engine)) := by
  refine ⟨.event (reports_event_at price s.engine), fun k ids hids _ => ?_⟩
  obtain ⟨hk, rfl⟩ := List.getElem?_eq_some_iff.mp hids
  exact List.mem_map.mpr ⟨_, List.mem_mapIdx.mpr ⟨k, hk, rfl⟩, rfl⟩

/-- An event and then a sweep, both on a candle that trades at one price. -/
def event_and_sweep (price price' : ℚ) (s : Trading) : Option Trading :=
  let s := s.on_event (event_at price s.engine)
  (s.engine.update_new_orders 9 (flat_candle price')).map fun engine => { s with engine := engine }

theorem run_event_and_sweep {price price' : ℚ} {s s' : Trading}
    (h : event_and_sweep price price' s = some s') :
    runs.Run (runs.Where Step ReportsWaiting) s
      [.event (event_at price s.engine), .candle (flat_candle price')] s' := by
  obtain ⟨engine, he, rfl⟩ := Option.map_eq_some_iff.mp h
  exact .cons (step_event_at price s) (.single ⟨.candle he, trivial⟩)

/-- The bracket of the first event is bought and then stopped, and the one of the second event
waits. -/
theorem a_stopped_and_a_waiting_bracket_stay_intact :
    ∃ acts s, runs.Run (runs.Where Step ReportsWaiting) (start 0 1000) acts s ∧
      [0, 1, 2].map s.engine.status? = stopped ∧ [3, 4, 5].map s.engine.status? = waiting ∧
      (∀ ids ∈ s.engine.order_lists_, ids.map s.engine.status? ∈ states) ∧
      ∀ k : ℕ, s.engine.order_lists_[k]? = some [3, 4, 5] → k = 1 := by
  have h : ((event_and_sweep 100 89.98 (start 0 1000)).bind (event_and_sweep 89.98 89)).any
      (fun s => [0, 1, 2].map s.engine.status? = stopped ∧
        [3, 4, 5].map s.engine.status? = waiting ∧
        s.engine.order_lists_ = [[0, 1, 2], [3, 4, 5]]) = true := by decide +kernel
  obtain ⟨s2, hs, hfacts⟩ := (Option.any_eq_true _ _).mp h
  obtain ⟨hstopped, hwaiting, hlists⟩ := of_decide_eq_true hfacts
  obtain ⟨s1, h1, h2⟩ := Option.bind_eq_some_iff.mp hs
  have hrun := (run_event_and_sweep h1).append (run_event_and_sweep h2)
  obtain ⟨hstates, hsingle⟩ := brackets_of_the_strategy_stay_intact 0 1000
  refine ⟨_, s2, hrun, hstopped, hwaiting, (hstates _ _ hrun.forget).1, fun k hk => ?_⟩
  exact hsingle _ _ hrun k 1 _ _ hk (by rw [hlists]; rfl) hwaiting hwaiting

end Trading

end wedge.strategy2
