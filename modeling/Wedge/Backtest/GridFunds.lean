-- The money of the grid. Without a commission the account can pay for every walk
-- over the levels of the grid, and it is just enough: with a commission, however
-- small, a walk to the last level, one down and up again is one order too many.
import Wedge.Backtest.Rebalance

namespace wedge

open programs containers runs

/-! ## The walk -/

theorem GridStrategy.cancel_all_orders_asks {g : GridStrategy}
    (h : ¬ (g.sell_order_.isNone ∧ g.buy_order_.isNone)) :
    ∃ op next, g.cancel_all_orders = .call op next := by
  rcases g with ⟨_, _, _, _, _, _ | b, _ | s, _⟩
  · simp at h
  · exact ⟨_, _, rfl⟩
  · exact ⟨_, _, rfl⟩
  · exact ⟨_, _, rfl⟩

/-- With an order in a slot, an update that asks for nothing changes the indicator only. -/
theorem GridStrategy.update_calm {g g' : GridStrategy} {candle : Candle}
    (h : ¬ (g.sell_order_.isNone ∧ g.buy_order_.isNone)) (hu : g.update candle = .ret g') :
    g' = { g with index_ := g.index_.update candle.close_price } := by
  unfold GridStrategy.update at hu
  dsimp only at hu
  split at hu
  · cases hu
    rfl
  · split at hu
    · obtain ⟨op, next, hasks⟩ := GridStrategy.cancel_all_orders_asks
        (g := { g with index_ := g.index_.update candle.close_price }) h
      rw [hasks] at hu
      cases hu
    · split at hu
      · obtain ⟨op, next, hasks⟩ := GridStrategy.cancel_all_orders_asks
          (g := { g with
            index_ := g.index_.update candle.close_price, baseline_price_ := candle.close_price }) h
        rw [hasks, Prog.bind_call] at hu
        cases hu
      · cases hu
        rfl

namespace BacktestRun

/-- The next update, if one is due, asks the broker for nothing: there is no RSI stop and no
rebalance. -/
def Calm (r : BacktestRun GridStrategy) (_ : Unit) : Prop :=
  ∀ candle, r.pc = .swept candle → ∃ g, r.strategy.update candle = .ret g

/-- The side of the order that the step executes. -/
def traded {σ : Type} (r : BacktestRun σ) (_ : Unit) : List OrderSide :=
  match r.pc with
  | .visit (some index) last_index candle =>
    if index < last_index then
      match r.context.orders_.find index with
      | none => []
      | some order => if (order.update r.context candle).1 then [order.side] else []
    else []
  | _ => []

theorem traded_pass {σ : Type} {r : BacktestRun σ} {k last : OrderIndex} {candle : Candle}
    {order : OrderCall} {a : Unit} (hpc : r.pc = .visit (some k) last candle)
    (hfind : r.context.orders_.find k = some order) (hexec : ¬ order.Executes r.context candle) :
    r.traded a = [] := by
  simp [traded, hpc, hfind, OrderCall.executes_iff, hexec]

theorem traded_trade {σ : Type} {r : BacktestRun σ} {k last : OrderIndex} {candle : Candle}
    {order : OrderCall} {a : Unit} (hpc : r.pc = .visit (some k) last candle) (hlt : k < last)
    (hfind : r.context.orders_.find k = some order) (hexec : order.Executes r.context candle) :
    r.traded a = [order.side] := by
  simp [traded, hpc, hlt, hfind, OrderCall.executes_iff, hexec]

/-- The steps of the grid, without an RSI stop and without another rebalance. -/
abbrev GridStep := Where (Step (grid_strategy id)) Calm

end BacktestRun

namespace GridStart

variable {p : GridStart}

theorem Slotted.some_order {i : OrderIndex} {log : List OrderSide} {g : GridStrategy}
    (h : p.Slotted i log g) : ¬ (g.sell_order_.isNone ∧ g.buy_order_.isNone) := by
  rw [h.sell, h.buy]
  rcases log with _ | ⟨first, fills⟩
  · unfold sell_slot buy_slot
    split <;> simp
  · simp [sell_slot]

/-- What holds at each place of the run after the fills of the log, the first of which is the
one of the initial order. -/
def Walk (p : GridStart) (log : List OrderSide) (r : BacktestRun GridStrategy) : Prop :=
  p.Booked log r.context ∧
  match r.pc with
  | .next => ∃ i, p.Open i log r.strategy r.context
  | .visit iterator last _ => ∃ i, p.Open i log r.strategy r.context ∧
      (last = i ∨ last = r.context.last_order_index_) ∧
      ∀ k, iterator = some k → k ∈ r.context.orders_.keys
  | .filled k last _ => last = r.context.last_order_index_ ∧ ∃ i before e,
      p.Open i before r.strategy r.context ∧ e ∈ p.open_orders i before ∧
      log = before ++ [e.2.side] ∧ k = e.1
  | .reported k last _ => k < last ∧ p.Slotted last log r.strategy ∧
      (∃ order, r.context.orders_.entries = (k, order) :: p.open_orders last log) ∧
      r.context.last_order_index_ = last + (p.open_orders last log).length
  | .swept _ => ∃ i, p.Open i log r.strategy r.context
  | .crashed _ => False

/-- The engine forgets the filled order, and the next one is behind the bound. -/
theorem open_of_reported {k last : OrderIndex} {order : OrderCall} {log : List OrderSide}
    {g : GridStrategy} {c : BacktestContext} (hlt : k < last) (hslot : p.Slotted last log g)
    (hentries : c.orders_.entries = (k, order) :: p.open_orders last log)
    (hlast : c.last_order_index_ = last + (p.open_orders last log).length) :
    k ∈ c.orders_.keys ∧ c.orders_.next k = some last ∧ p.Open last log g (c.cancel k) ∧
      last ∈ (c.cancel k).orders_.keys := by
  have hkeys : ∃ l, (p.open_orders last log).map Prod.fst = last :: l := by
    rcases log with _ | ⟨first, fills⟩ <;> exact ⟨_, rfl⟩
  have hne : ∀ e ∈ p.open_orders last log, e.1 ≠ k := by
    rcases log with _ | ⟨first, fills⟩
    · simpa [open_orders] using hlt.ne'
    · simpa [open_orders] using ⟨hlt.ne', (Nat.lt_succ_of_lt hlt).ne'⟩
  obtain ⟨l, hl⟩ := hkeys
  have hall : c.orders_.keys = [] ++ k :: last :: l := by
    unfold Map.keys
    rw [hentries, List.map_cons, hl]
    rfl
  have hrest : (c.cancel k).orders_.entries = p.open_orders last log := by
    change c.orders_.entries.filter _ = _
    rw [hentries, List.filter_cons_of_neg (by simp), List.filter_eq_self.mpr (by simpa using hne)]
  refine ⟨?_, Map.next_of_split hall, ⟨hslot, hrest, hlast⟩, ?_⟩
  · rw [hall]
    exact List.mem_cons_self
  · unfold Map.keys
    rw [hrest, hl]
    exact List.mem_cons_self

theorem Open.mem_orders {i : OrderIndex} {log : List OrderSide} {g : GridStrategy}
    {c : BacktestContext} (h : p.Open i log g c) {k : OrderIndex} {order : OrderCall}
    (hfind : c.orders_.find k = some order) : (k, order) ∈ p.open_orders i log :=
  h.orders ▸ Map.mem_of_find hfind

theorem Open.find {i : OrderIndex} {log : List OrderSide} {g : GridStrategy}
    {c : BacktestContext} (h : p.Open i log g c) {e : OrderIndex × OrderCall}
    (he : e ∈ p.open_orders i log) : c.orders_.find e.1 = some e.2 :=
  Map.find_of_mem (show e ∈ c.orders_.entries from h.orders ▸ he)

theorem open_orders_bounds {i : OrderIndex} {log : List OrderSide} {e : OrderIndex × OrderCall}
    (he : e ∈ p.open_orders i log) : i ≤ e.1 ∧ e.1 < i + (p.open_orders i log).length := by
  rcases log with _ | ⟨first, fills⟩
  · cases List.mem_singleton.mp he
    exact ⟨Nat.le_refl i, Nat.lt_succ_self i⟩
  · rcases List.mem_pair.mp he with rfl | rfl
    · exact ⟨Nat.le_refl i, Nat.lt_add_of_pos_right Nat.zero_lt_two⟩
    · exact ⟨Nat.le_succ i, Nat.lt_succ_self (i + 1)⟩

theorem walk_step {log : List OrderSide} {r r' : BacktestRun GridStrategy} {a : Unit}
    (hstep : BacktestRun.GridStep r a r') (h : p.Walk log r) :
    p.Walk (log ++ BacktestRun.traded r a) r' := by
  obtain ⟨hstep, hcalm⟩ := hstep
  obtain ⟨hbooked, h⟩ := h
  cases BacktestRun.step_moves hstep with
  | start hpc hd =>
    rw [hpc] at h
    obtain ⟨i, hopen⟩ := h
    rw [BacktestRun.traded, hpc, List.append_nil]
    exact ⟨hbooked, i, hopen, Or.inr rfl, fun k hk => Map.first_mem hk⟩
  | finish hpc =>
    rw [hpc] at h
    obtain ⟨i, hopen, _⟩ := h
    rw [BacktestRun.traded, hpc, List.append_nil]
    exact ⟨hbooked, i, hopen⟩
  | bound hpc hle =>
    rw [hpc] at h
    obtain ⟨i, hopen, _⟩ := h
    simp only [BacktestRun.traded, hpc, if_neg (Nat.not_lt.mpr hle), List.append_nil]
    exact ⟨hbooked, i, hopen⟩
  | pass hpc hlt hfind hexec =>
    rw [hpc] at h
    obtain ⟨i, hopen, hbound, _⟩ := h
    rw [BacktestRun.traded_pass hpc hfind hexec, List.append_nil]
    exact ⟨hbooked, i, hopen, hbound, fun j hj => (Map.next_mem hj).1⟩
  | @trade k last candle order hpc hlt hfind hexec =>
    rw [hpc] at h
    obtain ⟨i, hopen, hbound, _⟩ := h
    have hmem := hopen.mem_orders hfind
    -- Nothing was filled yet: after a fill, the traversal is at its bound.
    have hlast : last = r.context.last_order_index_ := by
      refine hbound.resolve_left fun heq => ?_
      exact absurd hlt (not_lt.mpr (heq ▸ (open_orders_bounds hmem).1))
    rw [BacktestRun.traded_trade hpc hlt hfind hexec]
    exact ⟨hbooked.trade hmem candle, hlast, i, log, (k, order),
      ⟨hopen.slotted, hopen.orders, hopen.last⟩, hmem, rfl, rfl⟩
  | lost hpc hmem =>
    exfalso
    rcases hpc with ⟨hpc, _⟩ | hpc <;> rw [hpc] at h
    · obtain ⟨_, _, _, hit⟩ := h
      exact hmem (hit _ rfl)
    · obtain ⟨hlt, hslot, ⟨order, hentries⟩, hlast⟩ := h
      exact hmem (open_of_reported hlt hslot hentries hlast).1
  | report hpc =>
    rw [hpc] at h
    obtain ⟨hlast, i, before, e, hopen, he, rfl, rfl⟩ := h
    obtain ⟨g', c', hrun, hslot, hentries, hindex, haccount, hcommission, _⟩ := hopen.report he
    have hrun' : run BacktestBroker ((grid_strategy id).on_order_filled e.1 r.strategy) r.context =
        (.ok g', c') := hrun
    have hlength : ∀ i, (p.open_orders i (before ++ [e.2.side])).length = 2 := by
      rcases before with _ | ⟨first, fills⟩ <;> exact fun i => rfl
    have hlt := (open_orders_bounds he).2
    rw [← hopen.last, ← hlast] at hlt
    rw [BacktestRun.callback_ok hrun', BacktestRun.traded, hpc, List.append_nil]
    refine ⟨hbooked.of_account haccount hcommission, hlt, ?_, ⟨e.2, ?_⟩, ?_⟩
    · rw [hlast]
      exact hslot
    · rw [hlast]
      exact hentries
    · rw [hlength, hindex, hlast]
  | forget hpc hmem =>
    rw [hpc] at h
    obtain ⟨hlt, hslot, ⟨order, hentries⟩, hlast⟩ := h
    obtain ⟨_, hnext, hopen, hkey⟩ := open_of_reported hlt hslot hentries hlast
    rw [BacktestRun.traded, hpc, hnext, List.append_nil]
    refine ⟨⟨hbooked.commission, hbooked.account⟩, _, hopen, Or.inl rfl, fun j hj => ?_⟩
    cases hj
    exact hkey
  | @update candle hpc =>
    rw [hpc] at h
    obtain ⟨i, hopen⟩ := h
    obtain ⟨g', hu⟩ := hcalm candle hpc
    have hu' : run BacktestBroker ((grid_strategy id).update candle r.strategy) r.context =
        (.ok g', r.context) := by
      change run BacktestBroker (r.strategy.update candle) r.context = _
      rw [hu, run_ret]
    rw [BacktestRun.callback_ok hu', BacktestRun.traded, hpc, List.append_nil]
    cases GridStrategy.update_calm hopen.slotted.some_order hu
    have hslot := hopen.slotted
    exact ⟨hbooked, i, ⟨hslot.count, hslot.spacing, hslot.baseline, hslot.volume, hslot.sell,
      hslot.buy⟩, hopen.orders, hopen.last⟩

theorem walk_run {log out : List OrderSide} {r r' : BacktestRun GridStrategy}
    (hrun : Emits BacktestRun.GridStep BacktestRun.traded r out r') (h : p.Walk log r) :
    p.Walk (log ++ out) r' :=
  hrun.invariant (fun _ _ _ _ hstep hs => walk_step hstep hs) h

theorem walk_placed (p : GridStart) (g : GridStrategy) (index : OrderIndex)
    (candles : List Candle) : p.Walk [] (p.placed g index candles) := by
  have hplace := p.place_initial_orders_eq g (c := {
    account_ := p.account, commission_ := p.commission, last_order_index_ := index }) rfl
  unfold placed
  rw [BacktestRun.callback_ok hplace]
  exact ⟨⟨rfl, rfl⟩, index, ⟨rfl, rfl, rfl, rfl, rfl, rfl⟩, rfl, rfl⟩

end GridStart

namespace Rebalance

open GridStart

variable {p : Rebalance}

/-- Every order of the grid that the engine looks at on a candle that meets it is executed, if
its fill keeps the level in the band. The level counts from the fill of the initial order. -/
def SelfFunding (p : Rebalance) : Prop :=
  ∀ (g : GridStrategy) (index : OrderIndex) (candles : List Candle) (first : OrderSide)
    (fills : List OrderSide) (r : BacktestRun GridStrategy),
    Emits BacktestRun.GridStep BacktestRun.traded (p.placed g index candles)
      (first :: fills) r →
    ∀ k last candle order, r.pc = .visit (some k) last candle → k < last →
      r.context.orders_.find k = some order → order.meets candle = true →
      |level (fills ++ [order.side])| ≤ p.grid_count → (order.update r.context candle).1 = true

theorem self_funding (hc : p.commission = 0) : p.SelfFunding := by
  intro g index candles first fills r hrun k last candle order hpc _ hfind hmeets hlevel
  obtain ⟨hbooked, hwalk⟩ := walk_run hrun (p.walk_placed g index candles)
  rw [hpc] at hwalk
  obtain ⟨i, hopen, _⟩ := hwalk
  have hfunds := p.funds hbooked hc (hopen.mem_orders hfind) hlevel candle
  exact OrderCall.executes_iff.mpr ⟨hmeets, hfunds⟩

/-! ## A walk that the commission stops -/

/-- The indicator after equal prices. Its value is not a number. -/
def flat_index (price : ℚ) : RelativeStrengthIndex where
  last_price_ := some price
  gains_ := List.replicate 20 0
  losses_ := List.replicate 20 0

theorem flat_index_update (price : ℚ) : (flat_index price).update price = flat_index price := by
  simp [RelativeStrengthIndex.update, RelativeStrengthIndex.push, flat_index]

theorem flat_index_value (price : ℚ) : (flat_index price).value = some none := by
  simp [RelativeStrengthIndex.value, flat_index]

/-- A candle that closes at the price of the rebalance is calm. -/
theorem flat_calm {i : OrderIndex} {log : List OrderSide} {g : GridStrategy}
    (h : p.Slotted i log g) (hindex : g.index_ = flat_index p.price) {candle : Candle}
    (hclose : candle.close_price = p.price) : g.update candle = .ret g := by
  have hupdate : g.index_.update candle.close_price = g.index_ := by
    rw [hindex, hclose, flat_index_update]
  have hbound : 0 ≤ g.baseline_price_ * g.grid_spacing_ * g.grid_count_ := by
    rw [h.baseline, h.spacing, h.count]
    exact mul_nonneg (mul_nonneg p.price_pos.le p.spacing_pos.le) p.count_pos'.le
  have hin : ¬ (candle.close_price < g.baseline_price_ -
        g.baseline_price_ * g.grid_spacing_ * g.grid_count_ ∨
      g.baseline_price_ + g.baseline_price_ * g.grid_spacing_ * g.grid_count_ <
        candle.close_price) := by
    rw [hclose, ← h.baseline]
    rintro (h1 | h1) <;> linarith
  have hvalue : g.index_.value = some none := by
    rw [hindex, flat_index_value]
  unfold GridStrategy.update
  rw [hupdate]
  dsimp only
  rw [hvalue]
  dsimp only [is_below]
  simp only [Bool.false_eq_true, if_false, if_neg h.some_order, if_neg hin]
  rfl

/-- The run stands at a place after the fills of the log, with the candles that are left. -/
structure Stage (s : BacktestRun GridStrategy) (log : List OrderSide) (rest : List Candle)
    (pc : BacktestPc) (r : BacktestRun GridStrategy) : Prop where
  reached : Emits BacktestRun.GridStep BacktestRun.traded s log r
  walk : p.Walk log r
  pc : r.pc = pc
  data : r.data_loader = rest
  index : r.strategy.index_ = flat_index p.price

namespace Stage

variable {s r r' : BacktestRun GridStrategy} {log : List OrderSide} {rest : List Candle}
  {pc : BacktestPc} {k last : OrderIndex} {candle : Candle} {order : OrderCall}

theorem go (h : p.Stage s log rest pc r) (hmove : BacktestRun.Move (grid_strategy id) r r')
    (hcalm : BacktestRun.Calm r ()) {rest' : List Candle} {pc' : BacktestPc}
    {out : List OrderSide} (hout : BacktestRun.traded r () = out) (hpc : r'.pc = pc')
    (hdata : r'.data_loader = rest') (hindex : r'.strategy.index_ = r.strategy.index_) :
    p.Stage s (log ++ out) rest' pc' r' := by
  have hgrid : BacktestRun.GridStep r () r' := ⟨hmove.step, hcalm⟩
  subst hout
  exact ⟨h.reached.append (.single hgrid), walk_step hgrid h.walk, hpc, hdata, hindex.trans h.index⟩

theorem pass (h : p.Stage s log rest pc r) (hmove : BacktestRun.Move (grid_strategy id) r r')
    (hcalm : BacktestRun.Calm r ()) (hout : BacktestRun.traded r () = [])
    {rest' : List Candle} {pc' : BacktestPc} (hpc : r'.pc = pc') (hdata : r'.data_loader = rest')
    (hindex : r'.strategy.index_ = r.strategy.index_) : p.Stage s log rest' pc' r' := by
  simpa using h.go hmove hcalm hout hpc hdata hindex

theorem calm (h : p.Stage s log rest pc r) (hpc : ∀ candle, pc ≠ .swept candle) :
    BacktestRun.Calm r () := fun candle hs => absurd (h.pc ▸ hs) (hpc candle)

theorem begin (h : p.Stage s log (candle :: rest) .next r) :
    ∃ r', p.Stage s log rest
      (.visit r.context.orders_.first r.context.last_order_index_ candle) r' ∧
      r'.context = r.context ∧ r'.strategy = r.strategy := by
  have hout : BacktestRun.traded r () = [] := by
    simp [BacktestRun.traded, h.pc]
  exact ⟨_, h.pass (.start h.pc h.data) (h.calm (by simp)) hout rfl rfl rfl, rfl, rfl⟩

/-- An order that is not executed is passed. -/
theorem skip (h : p.Stage s log rest (.visit (some k) last candle) r) (hlt : k < last)
    (hfind : r.context.orders_.find k = some order) (hexec : ¬ order.Executes r.context candle) :
    ∃ r', p.Stage s log rest (.visit (r.context.orders_.next k) last candle) r' ∧
      r'.context = r.context := by
  have hout : BacktestRun.traded r () = [] := BacktestRun.traded_pass h.pc hfind hexec
  exact ⟨_, h.pass (.pass h.pc hlt hfind hexec) (h.calm (by simp)) hout rfl h.data rfl, rfl⟩

theorem fill (h : p.Stage s log rest (.visit (some k) last candle) r) (hlt : k < last)
    (hfind : r.context.orders_.find k = some order) (hexec : order.Executes r.context candle) :
    ∃ r', p.Stage s (log ++ [order.side]) rest (.filled k last candle) r' := by
  have hout : BacktestRun.traded r () = [order.side] :=
    BacktestRun.traded_trade h.pc hlt hfind hexec
  exact ⟨_, h.go (.trade h.pc hlt hfind hexec) (h.calm (by simp)) hout rfl h.data rfl⟩

theorem report (h : p.Stage s log rest (.filled k last candle) r) :
    ∃ r', p.Stage s log rest (.reported k last candle) r' := by
  obtain ⟨_, hwalk⟩ := h.walk
  rw [h.pc] at hwalk
  obtain ⟨_, i, before, e, hopen, he, _, rfl⟩ := hwalk
  obtain ⟨g', c', hrun, _, _, _, _, _, hindex⟩ := hopen.report he
  have hrun' : run BacktestBroker ((grid_strategy id).on_order_filled e.1 r.strategy) r.context =
      (.ok g', c') := hrun
  have hmove : BacktestRun.Move (grid_strategy id) r _ := .report h.pc
  rw [BacktestRun.callback_ok hrun'] at hmove
  have hout : BacktestRun.traded r () = [] := by
    simp [BacktestRun.traded, h.pc]
  exact ⟨_, h.pass hmove (h.calm (by simp)) hout rfl h.data hindex⟩

theorem forget (h : p.Stage s log rest (.reported k last candle) r) :
    ∃ r', p.Stage s log rest (.visit (some last) last candle) r' := by
  obtain ⟨_, hwalk⟩ := h.walk
  rw [h.pc] at hwalk
  obtain ⟨hlt, hslot, ⟨order, hentries⟩, hlast⟩ := hwalk
  obtain ⟨hmem, hnext, _⟩ := open_of_reported hlt hslot hentries hlast
  have hmove : BacktestRun.Move (grid_strategy id) r _ := .forget h.pc hmem
  rw [hnext] at hmove
  have hout : BacktestRun.traded r () = [] := by
    simp [BacktestRun.traded, h.pc]
  exact ⟨_, h.pass hmove (h.calm (by simp)) hout rfl h.data rfl⟩

theorem sweep (h : p.Stage s log rest (.visit (some last) last candle) r) :
    ∃ r', p.Stage s log rest (.swept candle) r' := by
  have hout : BacktestRun.traded r () = [] := by
    simp [BacktestRun.traded, h.pc]
  exact ⟨_, h.pass (.bound h.pc (Nat.le_refl last)) (h.calm (by simp)) hout rfl h.data rfl⟩

theorem update (h : p.Stage s log rest (.swept candle) r) (hclose : candle.close_price = p.price) :
    ∃ r', p.Stage s log rest .next r' := by
  obtain ⟨_, hwalk⟩ := h.walk
  rw [h.pc] at hwalk
  obtain ⟨i, hopen⟩ := hwalk
  have hcalm := flat_calm hopen.slotted h.index hclose
  have hrun : run BacktestBroker ((grid_strategy id).update candle r.strategy) r.context =
      (.ok r.strategy, r.context) := by
    change run BacktestBroker (r.strategy.update candle) r.context = _
    rw [hcalm, run_ret]
  have hmove : BacktestRun.Move (grid_strategy id) r _ := .update h.pc
  rw [BacktestRun.callback_ok hrun] at hmove
  have hout : BacktestRun.traded r () = [] := by
    simp [BacktestRun.traded, h.pc]
  have hquiet : BacktestRun.Calm r () := by
    intro c hc
    cases h.pc.symm.trans hc
    exact ⟨_, hcalm⟩
  exact ⟨_, h.pass hmove hquiet hout rfl h.data rfl⟩

/-- From the look at an order that is executed, the run comes to the next candle. -/
theorem turn (h : p.Stage s log rest (.visit (some k) last candle) r) (hlt : k < last)
    (hfind : r.context.orders_.find k = some order) (hexec : order.Executes r.context candle)
    (hclose : candle.close_price = p.price) :
    ∃ r', p.Stage s (log ++ [order.side]) rest .next r' := by
  obtain ⟨_, h1⟩ := h.fill hlt hfind hexec
  obtain ⟨_, h2⟩ := h1.report
  obtain ⟨_, h3⟩ := h2.forget
  obtain ⟨_, h4⟩ := h3.sweep
  exact h4.update hclose

end Stage

variable {g : GridStrategy} {index : OrderIndex} {candles rest : List Candle}
  {first : OrderSide} {fills : List OrderSide} {candle : Candle} {r : BacktestRun GridStrategy}

/-- The engine comes to the first of the open orders. -/
theorem first_seen {s : BacktestRun GridStrategy} {log : List OrderSide}
    (h : p.Stage s log (candle :: rest) .next r) :
    ∃ i last r', p.Stage s log rest (.visit (some i) last candle) r' ∧
      p.Open i log r'.strategy r'.context ∧ last = i + (p.open_orders i log).length := by
  obtain ⟨_, hwalk⟩ := h.walk
  rw [h.pc] at hwalk
  obtain ⟨i, hopen⟩ := hwalk
  have hfirst : r.context.orders_.first = some i := by
    unfold Map.first Map.keys
    rw [hopen.orders]
    rcases log with _ | ⟨first, fills⟩ <;> rfl
  obtain ⟨r1, h1, hcontext, hstrategy⟩ := h.begin
  rw [hfirst] at h1
  refine ⟨i, _, r1, h1, ?_, hopen.last⟩
  rw [hcontext, hstrategy]
  exact hopen

theorem initial_filled (h : p.Stage (p.placed g index candles) [] (candle :: rest) .next r)
    (hlow : candle.low_price ≤ p.price) (hhigh : p.price ≤ candle.high_price)
    (hclose : candle.close_price = p.price) :
    ∃ r', p.Stage (p.placed g index candles) [p.initial_order.side] rest .next r' := by
  obtain ⟨i, last, r1, h1, hopen, hlast⟩ := first_seen h
  have hfunds := p.initial_funds h1.walk.1.account
  have hmeets : p.initial_order.meets candle = true := by
    unfold initial_order
    split <;> simp [OrderCall.meets, hlow, hhigh]
  have hexec : p.initial_order.Executes r1.context candle := by
    refine ⟨hmeets, ?_⟩
    rw [initial_fill_price]
    exact hfunds
  have hlt : i < last := by
    rw [hlast]
    exact Nat.lt_succ_self i
  exact h1.turn hlt (hopen.find (List.mem_singleton.mpr rfl)) hexec hclose

/-- A self-funding grid executes the sell on a candle that is high enough. -/
theorem sell_seen (hself : p.SelfFunding)
    (h : p.Stage (p.placed g index candles) (first :: fills) (candle :: rest) .next r)
    (hhigh : p.price_at fills + p.spacing ≤ candle.high_price)
    (hlevel : |level fills + 1| ≤ p.grid_count) :
    ∃ r' k last,
      p.Stage (p.placed g index candles) (first :: fills) rest (.visit (some k) last candle) r' ∧
      k < last ∧
      r'.context.orders_.find k =
        some (.limit_sell_order p.volume (p.price_at fills + p.spacing)) ∧
      OrderCall.Executes r'.context candle
        (.limit_sell_order p.volume (p.price_at fills + p.spacing)) := by
  obtain ⟨i, last, r1, h1, hopen, hlast⟩ := first_seen h
  have hlt : i < last := by
    rw [hlast]
    exact Nat.lt_add_of_pos_right Nat.zero_lt_two
  have hfind := hopen.find (e := (i, .limit_sell_order p.volume (p.price_at fills + p.spacing)))
    List.mem_cons_self
  refine ⟨r1, i, last, h1, hlt, hfind, ?_⟩
  rw [← level_sell] at hlevel
  exact OrderCall.executes_iff.mp (hself g index candles first fills r1 h1.reached i last candle _
    h1.pc hlt hfind (decide_eq_true hhigh) hlevel)

theorem sell_filled (hself : p.SelfFunding)
    (h : p.Stage (p.placed g index candles) (first :: fills) (candle :: rest) .next r)
    (hhigh : p.price_at fills + p.spacing ≤ candle.high_price)
    (hlevel : |level fills + 1| ≤ p.grid_count) (hclose : candle.close_price = p.price) :
    ∃ r', p.Stage (p.placed g index candles) (first :: (fills ++ [.kSell])) rest .next r' := by
  obtain ⟨r1, k, last, h1, hlt, hfind, hexec⟩ := sell_seen hself h hhigh hlevel
  exact h1.turn hlt hfind hexec hclose

/-- It executes the buy on a candle that is low enough and does not meet the sell. -/
theorem buy_filled (hself : p.SelfFunding)
    (h : p.Stage (p.placed g index candles) (first :: fills) (candle :: rest) .next r)
    (hhigh : candle.high_price < p.price_at fills + p.spacing)
    (hlow : candle.low_price ≤ p.price_at fills - p.spacing)
    (hlevel : |level fills - 1| ≤ p.grid_count) (hclose : candle.close_price = p.price) :
    ∃ r', p.Stage (p.placed g index candles) (first :: (fills ++ [.kBuy])) rest .next r' := by
  obtain ⟨i, last, r1, h1, hopen, hlast⟩ := first_seen h
  have hlt : i + 1 < last := by
    rw [hlast]
    exact Nat.lt_succ_self (i + 1)
  have hsell := hopen.find (e := (i, .limit_sell_order p.volume (p.price_at fills + p.spacing)))
    List.mem_cons_self
  have hbuy := hopen.find
    (e := (i + 1, .limit_buy_order p.volume (p.price_at fills - p.spacing)))
    (List.mem_cons_of_mem _ List.mem_cons_self)
  have hnext : r1.context.orders_.next i = some (i + 1) := by
    have hkeys : r1.context.orders_.keys = [] ++ i :: [i + 1] := by
      unfold Map.keys
      rw [hopen.orders]
      rfl
    exact Map.next_of_split hkeys
  have hmiss : ¬ OrderCall.Executes r1.context candle
      (.limit_sell_order p.volume (p.price_at fills + p.spacing)) := by
    rintro ⟨hmeets, _⟩
    exact absurd (of_decide_eq_true hmeets) (not_le.mpr hhigh)
  obtain ⟨r2, h2, hcontext⟩ := h1.skip (Nat.lt_of_succ_lt hlt) hsell hmiss
  rw [hnext] at h2
  rw [← hcontext] at hbuy
  rw [← level_buy] at hlevel
  have hexec := OrderCall.executes_iff.mp (hself g index candles first fills r2 h2.reached (i + 1)
    last candle _ h2.pc hlt hbuy (decide_eq_true hlow) hlevel)
  exact h2.turn hlt hbuy hexec hclose

/-- A candle that closes at the price of the rebalance and reaches `n` levels up. -/
def tall_candle (p : Rebalance) (n : ℕ) : Candle :=
  { flat_candle p.price with high_price := p.price + n * p.spacing }

theorem level_climb (n : ℕ) : level (List.replicate n .kSell) = n := by
  simp [level, List.count_replicate]

theorem price_at_climb (p : Rebalance) (n : ℕ) :
    p.price_at (List.replicate n .kSell) = p.price + n * p.spacing := by
  unfold price_at
  rw [level_climb]
  norm_cast

/-- A strategy that has seen equal prices only. -/
def flat_strategy (p : Rebalance) : GridStrategy :=
  { grid_count_ := 0, order_volume_ := 0, grid_spacing_ := 0, index_ := flat_index p.price }

theorem placed_stage (p : Rebalance) (index : OrderIndex) (candles : List Candle) :
    p.Stage (p.placed p.flat_strategy index candles) [] candles .next
      (p.placed p.flat_strategy index candles) := by
  have hplace := p.place_initial_orders_eq p.flat_strategy (c := {
    account_ := p.account, commission_ := p.commission, last_order_index_ := index }) rfl
  have hplaced : p.placed p.flat_strategy index candles = _ := BacktestRun.callback_ok hplace
  refine ⟨.nil _, p.walk_placed _ _ _, ?_, ?_, ?_⟩
  · rw [hplaced]
  · rw [hplaced]
  · rw [hplaced]
    rfl

/-- A self-funding grid sells on each level. -/
theorem climbs (hself : p.SelfFunding) {n : ℕ} (hn : n ≤ p.grid_count) (rest : List Candle) :
    ∃ candles r, p.Stage (p.placed p.flat_strategy 0 candles)
      (p.initial_order.side :: List.replicate n .kSell) rest .next r := by
  induction n generalizing rest with
  | zero =>
    obtain ⟨r, h⟩ := initial_filled (p.placed_stage 0 (flat_candle p.price :: rest)) le_rfl le_rfl
      rfl
    exact ⟨_, r, h⟩
  | succ n ih =>
    obtain ⟨candles, r, h⟩ := ih (by omega) (p.tall_candle (n + 1) :: rest)
    have hhigh : p.price_at (List.replicate n .kSell) + p.spacing ≤
        (p.tall_candle (n + 1)).high_price := by
      rw [price_at_climb]
      simp only [tall_candle]
      push_cast
      linarith
    have hlevel : |level (List.replicate n .kSell) + 1| ≤ p.grid_count := by
      rw [level_climb, abs_of_nonneg (by omega)]
      exact_mod_cast hn
    obtain ⟨r', h'⟩ := sell_filled hself h hhigh hlevel rfl
    rw [← List.replicate_succ'] at h'
    exact ⟨candles, r', h'⟩

/-- With a commission, the account lacks the commission of a buy when the walk is back at the
last level. -/
theorem not_self_funding (hc : 0 < p.commission) : ¬ p.SelfFunding := by
  intro hself
  obtain ⟨n, hn⟩ := Int.eq_ofNat_of_zero_le (Int.le_of_lt (Int.lt_of_lt_of_le Int.zero_lt_one
    p.count_pos))
  have hone : 1 ≤ n := by
    have := p.count_pos
    omega
  have hprice := price_at_climb p n
  have hspacing := p.spacing_pos'
  have hn' : (1 : ℚ) ≤ n := by
    exact_mod_cast hone
  have hreach : p.spacing ≤ n * p.spacing := le_mul_of_one_le_left hspacing.le hn'
  -- Up to the last level, one level down, and up again.
  obtain ⟨candles, r, h⟩ := climbs hself (n := n) hn.ge
    [flat_candle p.price, p.tall_candle n]
  have hlevel := level_climb n
  obtain ⟨r1, h1⟩ := buy_filled hself h (by simp only [flat_candle]; linarith)
    (by simp only [flat_candle]; linarith)
    (by rw [hlevel, hn, abs_of_nonneg (by omega)]; omega) rfl
  have hback : p.price_at (List.replicate n .kSell ++ [.kBuy]) =
      p.price_at (List.replicate n .kSell) - p.spacing := price_at_buy _
  obtain ⟨r2, k, last, h2, _, _, hexec⟩ := sell_seen hself h1
    (by rw [hback, hprice]; simp only [tall_candle]; linarith)
    (by rw [level_buy, hlevel, hn]; simp)
  have hfunds : p.volume ≤ r2.context.account_.position := hexec.2
  have hholds : p.Holds (List.replicate n .kSell ++ [.kBuy]) r2.context.account_ :=
    h2.walk.1.account
  have hposition : p.position_at (List.replicate n .kSell ++ [.kBuy]) =
      p.start_position + p.volume * (1 - p.commission - n) := by
    rw [position_buy]
    simp [position_at, List.count_replicate]
    ring
  have hstart := p.start_position_le
  rw [← p.volume_mul_count, hn] at hstart
  rw [hholds.position, hposition] at hfunds
  have hpaid := mul_pos p.volume_pos hc
  push_cast at hstart
  linarith

/-- Every grid order within the band is executed, whatever the walk, if and only if there is no
commission. -/
theorem the_grid_funds_itself_iff_nothing_is_charged (p : Rebalance) :
    p.SelfFunding ↔ p.commission = 0 := by
  constructor
  · intro hself
    by_contra hc
    exact not_self_funding (lt_of_le_of_ne p.commission_nonneg (Ne.symm hc)) hself
  · exact self_funding

/-- A grid of two levels with the commission of the backtest program. -/
def two_levels : Rebalance where
  account := { balance := 1000, position := 0 }
  commission := 1 / 1000
  grid_count := 2
  grid_spacing := 1 / 10
  price := 100
  balance_nonneg := by norm_num
  position_nonneg := by norm_num
  commission_nonneg := by norm_num
  commission_lt := by norm_num
  count_pos := by norm_num
  spacing_pos := by norm_num
  band := by norm_num
  price_pos := by norm_num
  off_target := by norm_num

/-- The first order buys five units and gets 4.995, and two sells of 2.5 units need five. -/
theorem two_levels_do_not_fund_themselves : ¬ two_levels.SelfFunding :=
  not_self_funding (by norm_num [two_levels])

end Rebalance

end wedge
