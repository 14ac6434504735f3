-- The grid strategy in the old backtest engine. The slots agree with the map at
-- every step, and a candle fills at most one order: the new orders are behind
-- the bound of the traversal.
import Wedge.Backtest.Effects
import Wedge.Strategy.Slots

namespace wedge

open programs containers

/-- The indices of the map were given out, and at least `last` indices were. -/
structure BacktestContext.Fits (last : OrderIndex) (c : BacktestContext) : Prop where
  last_le : last ≤ c.last_order_index_
  small : ∀ i ∈ c.orders_.keys, i < c.last_order_index_

theorem BacktestContext.Fits.new {last : OrderIndex} {c : BacktestContext} (h : c.Fits last) :
    c.last_order_index_ ∉ c.orders_.keys := fun hk => Nat.lt_irrefl _ (h.small _ hk)

theorem BacktestContext.add_order_perm {last : OrderIndex} {c : BacktestContext}
    (h : c.Fits last) (order : OrderCall) :
    (c.add_order order).2.orders_.entries.Perm
      ((c.last_order_index_, order) :: c.orders_.entries) := sorted.emplace_perm order h.new

theorem BacktestContext.Fits.add_order {last : OrderIndex} {c : BacktestContext}
    (h : c.Fits last) (order : OrderCall) : (c.add_order order).2.Fits last := by
  refine ⟨Nat.le_succ_of_le h.last_le, fun i hi => ?_⟩
  rcases (sorted.mem_keys_emplace h.new).mp hi with rfl | hi
  · exact Nat.lt_succ_self _
  · exact Nat.lt_succ_of_lt (h.small i hi)

theorem BacktestContext.Fits.cancel {last : OrderIndex} {c : BacktestContext}
    (h : c.Fits last) (index : OrderIndex) : (c.cancel index).Fits last :=
  ⟨h.last_le, fun i hi => h.small i (Map.mem_keys_erase.mp hi).1⟩

/-- The broker of the backtest never fails. -/
theorem backtest_tracker (last : OrderIndex) (processed : Option OrderIndex) :
    Tracker BacktestBroker BacktestContext.orders_ (BacktestContext.Fits last) (fun _ _ => True)
      (fun _ _ => False) last processed where
  place order c h _ := Or.inl ⟨c.last_order_index_, (c.add_order order).2, rfl, h.add_order order,
    h.last_le, c.add_order_perm h order⟩
  cancel i c h _ _ := Or.inl ⟨c.cancel i, rfl, h.cancel i, rfl⟩
  account c h _ := Or.inl ⟨c.account_, c, rfl, h, rfl⟩

namespace BacktestRun

/-- Between the calls of the strategy: at least `last` indices were given out, and the slots
agree with the map. -/
abbrev Steady (last : OrderIndex) (held : Option Slot) (r : BacktestRun GridStrategy) : Prop :=
  InStep (BacktestContext.Fits last) BacktestContext.orders_ held r.strategy r.context

/-- What holds at each place of the run. After a fill, every order that the traversal can
still reach is behind its bound. -/
def Sound (r : BacktestRun GridStrategy) : Prop :=
  match r.pc with
  | .next => r.Steady 0 none ∧ r.fills ≤ 1
  | .visit iterator last _ => r.Steady last none ∧ r.fills ≤ 1 ∧
      ∀ k, iterator = some k → k ∈ r.context.orders_.keys ∧ (r.fills = 0 ∨ last ≤ k)
  | .filled k last _ => r.Steady last none ∧ r.fills ≤ 1 ∧ k ∈ r.context.orders_.keys
  | .reported k last _ => r.fills ≤ 1 ∧ ∃ x : Slot, x.1 = k ∧ r.Steady last (some x) ∧
      ∀ y ∈ r.strategy.slots, last ≤ y.1
  | .swept _ => r.Steady 0 none ∧ r.fills ≤ 1
  | .crashed _ => False

theorem Steady.forget_bound {last : OrderIndex} {held : Option Slot} {r : BacktestRun GridStrategy}
    (h : r.Steady last held) : r.Steady 0 held :=
  h.mono fun hf => ⟨Nat.zero_le _, hf.small⟩

/-- The rule of a callback: under a contract that the broker keeps it does not crash. -/
theorem callback_rule {P : BacktestRun GridStrategy → Prop}
    {guar : BrokerCall → BacktestContext → Prop} {p : StrategyProg GridStrategy}
    {post : GridStrategy → BacktestContext → Prop} {r : BacktestRun GridStrategy} {pc : BacktestPc}
    (h : Safe BacktestBroker (fun _ _ => True) guar (fun _ _ => False) p post r.context)
    (hpost : ∀ g c, post g c → P { r with pc := pc, context := c, strategy := g }) :
    P (r.callback p pc) := by
  unfold callback
  rcases h.ends (obeys_true _ _ _) with ⟨g, c, hrun, h1⟩ | ⟨_, _, _, hf⟩
  · rw [hrun]
    exact hpost g c h1
  · exact hf.elim

/-- A trade leaves the orders as they are. -/
theorem Steady.traded {last : OrderIndex} {held : Option Slot} {r : BacktestRun GridStrategy}
    (h : r.Steady last held) (account : Account) :
    InStep (BacktestContext.Fits last) BacktestContext.orders_ held r.strategy
      { r.context with account_ := account } :=
  ⟨⟨h.inv.last_le, h.inv.small⟩, h.coupled⟩

theorem sound_step {to_float : ℚ → ℚ} {r r' : BacktestRun GridStrategy}
    (hstep : r.step (grid_strategy to_float) = some r') (h : r.Sound) : r'.Sound := by
  unfold Sound at h
  cases step_moves hstep with
  | start hpc hd =>
    -- A new candle: the bound is the next index.
    rw [hpc] at h
    refine ⟨h.1.mono fun hf => ⟨Nat.le_refl _, hf.small⟩, Nat.zero_le _, fun k hk => ?_⟩
    exact ⟨Map.first_mem hk, Or.inl rfl⟩
  | finish hpc =>
    rw [hpc] at h
    exact ⟨h.1.forget_bound, h.2.1⟩
  | bound hpc hle =>
    rw [hpc] at h
    exact ⟨h.1.forget_bound, h.2.1⟩
  | @pass k last candle order hpc hlt hfind hexec =>
    -- The order is in front of the bound, so nothing was filled yet.
    rw [hpc] at h
    obtain ⟨hs, hfills, hit⟩ := h
    refine ⟨hs, hfills, fun j hj => ⟨(Map.next_mem hj).1, Or.inl ?_⟩⟩
    exact (hit k rfl).2.resolve_right (Nat.not_le_of_lt hlt)
  | @trade k last candle order hpc hlt hfind hexec =>
    rw [hpc] at h
    obtain ⟨hs, hfills, hit⟩ := h
    obtain ⟨hmem, hbound⟩ := hit k rfl
    have hzero : r.fills = 0 := hbound.resolve_right (Nat.not_le_of_lt hlt)
    refine ⟨hs.traded _, ?_, hmem⟩
    simp [hzero]
  | @lost k last candle hpc hmem =>
    -- The strategy keeps every order that the traversal comes to.
    rcases hpc with ⟨hpc, _⟩ | hpc <;> rw [hpc] at h
    · exact hmem (h.2.2 k rfl).1
    · obtain ⟨_, x, rfl, hs, _⟩ := h
      exact hmem (hs.coupled.mem_keys_iff.mpr (Or.inr rfl))
  | @report k last candle hpc =>
    rw [hpc] at h
    obtain ⟨hs, hfills, hmem⟩ := h
    apply callback_rule (on_order_filled_safe (backtest_tracker last (some k)) to_float hs hmem)
    rintro g c ⟨x, hx, hpost, hnew⟩
    exact ⟨hfills, x, hx, hpost, hnew⟩
  | @forget k last candle hpc hmem =>
    -- The entry goes, and only new orders are left.
    rw [hpc] at h
    obtain ⟨hfills, x, rfl, hs, hnew⟩ := h
    refine ⟨⟨hs.inv.cancel _, hs.coupled.release⟩, hfills, fun j hj => ?_⟩
    obtain ⟨hj, hne⟩ := Map.next_mem hj
    refine ⟨Map.mem_keys_erase.mpr ⟨hj, hne⟩, Or.inr ?_⟩
    rcases hs.coupled.mem_keys_iff.mp hj with h1 | h1
    · obtain ⟨y, hy, rfl⟩ := List.mem_map.mp h1
      exact hnew y hy
    · exact absurd (Option.some.inj h1).symm hne
  | @update candle hpc =>
    rw [hpc] at h
    obtain ⟨hs, hfills⟩ := h
    apply callback_rule (update_safe (backtest_tracker 0 none) candle hs)
    intro g c hpost
    exact ⟨hpost, hfills⟩

theorem sound_start (account : Account) (commission : ℚ) (candles : List Candle) (volume : ℚ)
    (json : StrategyConfig) :
    (start account commission candles (GridStrategy.start volume json)).Sound :=
  ⟨⟨⟨Nat.zero_le _, fun _ hi => absurd hi List.not_mem_nil⟩, Coupled.start volume json⟩,
    Nat.zero_le _⟩

theorem sound_run {to_float : ℚ → ℚ} {r r' : BacktestRun GridStrategy} {n : List Unit}
    (hrun : runs.Run (Step (grid_strategy to_float)) r n r') (h : r.Sound) : r'.Sound :=
  hrun.invariant (fun _ _ _ hstep hs => sound_step hstep hs) h

/-- The order that `on_order_filled` was called for and that is still in the map. -/
def held (r : BacktestRun GridStrategy) : Option OrderIndex :=
  match r.pc with
  | .reported index _ _ => some index
  | _ => none

/-- The books of the strategy and of the engine: no crash, so no assertion fails, the agreement
before and after each callback, cancels of other tracked orders only, and at most one fill for
each candle. -/
structure Books (to_float : ℚ → ℚ) (r : BacktestRun GridStrategy) : Prop where
  goes_on : ∀ fault, r.pc ≠ .crashed fault
  agrees : Agrees r.held r.strategy r.context.orders_
  filled_cancels : ∀ index last candle, r.pc = .filled index last candle →
    Obeys BacktestBroker (CancelsTracked BacktestContext.orders_ (some index))
      (r.strategy.on_order_filled to_float index) r.context
  update_cancels : ∀ candle, r.pc = .swept candle →
    Obeys BacktestBroker (CancelsTracked BacktestContext.orders_ none)
      (r.strategy.update candle) r.context
  one_fill : r.fills ≤ 1

theorem Sound.steady {r : BacktestRun GridStrategy} (h : r.Sound) :
    r.fills ≤ 1 ∧ ∃ last x, x.map Prod.fst = r.held ∧ r.Steady last x := by
  unfold Sound at h
  unfold held
  rcases hpc : r.pc with _ | ⟨it, last, candle⟩ | ⟨k, last, candle⟩ | ⟨k, last, candle⟩ |
    candle | f <;> rw [hpc] at h
  · exact ⟨h.2, 0, none, rfl, h.1⟩
  · exact ⟨h.2.1, last, none, rfl, h.1⟩
  · exact ⟨h.2.1, last, none, rfl, h.1⟩
  · obtain ⟨hfills, x, rfl, hs, _⟩ := h
    exact ⟨hfills, last, some x, rfl, hs⟩
  · exact ⟨h.2, 0, none, rfl, h.1⟩
  · exact h.elim

theorem Sound.alive {r : BacktestRun GridStrategy} (h : r.Sound) (fault : Fault) :
    r.pc ≠ .crashed fault := by
  intro hpc
  rw [Sound, hpc] at h
  exact h

theorem Sound.books {to_float : ℚ → ℚ} {r : BacktestRun GridStrategy} (h : r.Sound) :
    r.Books to_float := by
  obtain ⟨hfills, last, x, hx, hs⟩ := h.steady
  refine ⟨h.alive, hx ▸ hs.coupled.agrees, ?_, ?_, hfills⟩
  · intro index last candle hpc
    rw [Sound, hpc] at h
    exact (on_order_filled_safe (backtest_tracker last (some index)) to_float h.1 h.2.2).obeys
      (obeys_true _ _ _)
  · intro candle hpc
    rw [Sound, hpc] at h
    exact (update_safe (backtest_tracker 0 none) candle h.1).obeys (obeys_true _ _ _)

end BacktestRun

end wedge
