-- The indicator of the grid strategy is the relative strength index: the gains of the
-- last changes of the price as a part of all their movement.
import Wedge.Indicator.Changes
import Wedge.Lib.Rings
import Wedge.Lib.Runs
import Wedge.Strategy.Grid

namespace wedge

open programs rings runs

/-! ## Gains and losses -/

/-- The positive changes together. -/
def gained (cs : List ℚ) : ℚ := (cs.filter fun change => 0 < change).sum

/-- The absolute negative changes together. -/
def lost (cs : List ℚ) : ℚ := ((cs.filter fun change => change < 0).map fun change => |change|).sum

namespace RelativeStrengthIndex

theorem sum_gain (cs : List ℚ) : (cs.map gain).sum = gained cs := by
  induction cs with
  | nil => rfl
  | cons change cs ih =>
    unfold gained at ih ⊢
    by_cases h : 0 < change <;> simp [gain, h, ih]

theorem sum_loss (cs : List ℚ) : (cs.map loss).sum = lost cs := by
  induction cs with
  | nil => rfl
  | cons change cs ih =>
    unfold lost at ih ⊢
    by_cases h : change < 0
    · simp [loss, h, ih, abs_of_neg h]
    · simp [loss, h, ih]

theorem gained_nonneg (cs : List ℚ) : 0 ≤ gained cs :=
  List.sum_nonneg fun change h => by
    have hpos := (List.mem_filter.mp h).2
    exact (of_decide_eq_true hpos).le

/-! ## The window -/

/-- The indicator holds the last changes: their gains, their losses, and the sums of both. -/
structure Holds (p : ℕ) (prices : List ℚ) (r : RelativeStrengthIndex) : Prop where
  period : r.period_ = p
  last : r.last_price_ = prices.getLast?
  gains : r.gains_ = ((changes prices).rtake p).map gain
  losses : r.losses_ = ((changes prices).rtake p).map loss
  sum_gains : r.sum_gain_ = r.gains_.sum
  sum_losses : r.sum_loss_ = r.losses_.sum

theorem Holds.start (p : ℕ) : Holds p [] { period_ := p } :=
  ⟨rfl, rfl, by simp [changes], by simp [changes], rfl, rfl⟩

theorem sum_tail (l : List ℚ) : l.tail.sum = l.sum - l.headD 0 := by
  cases l <;> simp

/-- A new change comes in, and the oldest one goes when there is one too many. -/
theorem Holds.push {p : ℕ} {prices : List ℚ} {r : RelativeStrengthIndex} {last_price price : ℚ}
    (h : Holds p (prices ++ [last_price]) r) :
    Holds p (prices ++ [last_price] ++ [price])
      ({ r with last_price_ := some price }.push (gain (price - last_price))
        (loss (price - last_price))) := by
  obtain ⟨hperiod, -, hgains, hlosses, hsg, hsl⟩ := h
  have hwindow := rtake_concat (changes (prices ++ [last_price])) (price - last_price) p
  rw [← changes_concat] at hwindow
  have hg : r.gains_ ++ [gain (price - last_price)] =
      ((changes (prices ++ [last_price])).rtake p ++ [price - last_price]).map gain := by
    rw [hgains, List.map_append, List.map_singleton]
  have hl : r.losses_ ++ [loss (price - last_price)] =
      ((changes (prices ++ [last_price])).rtake p ++ [price - last_price]).map loss := by
    rw [hlosses, List.map_append, List.map_singleton]
  have hgsum : r.sum_gain_ + gain (price - last_price) =
      (r.gains_ ++ [gain (price - last_price)]).sum := by
    rw [List.sum_append, List.sum_singleton, hsg]
  have hlsum : r.sum_loss_ + loss (price - last_price) =
      (r.losses_ ++ [loss (price - last_price)]).sum := by
    rw [List.sum_append, List.sum_singleton, hsl]
  unfold RelativeStrengthIndex.push
  simp only [hperiod, hgsum, hlsum, hg, hl, List.length_map]
  by_cases hfull : p <
      ((changes (prices ++ [last_price])).rtake p ++ [price - last_price]).length
  · rw [if_pos hfull] at hwindow ⊢
    refine ⟨rfl, List.getLast?_concat.symm, ?_, ?_, (sum_tail _).symm, (sum_tail _).symm⟩
    · rw [hwindow, List.map_tail]
    · rw [hwindow, List.map_tail]
  · rw [if_neg hfull] at hwindow ⊢
    exact ⟨rfl, List.getLast?_concat.symm, by rw [hwindow], by rw [hwindow], rfl, rfl⟩

theorem Holds.update {p : ℕ} {prices : List ℚ} {r : RelativeStrengthIndex}
    (h : Holds p prices r) (price : ℚ) : Holds p (prices ++ [price]) (r.update price) := by
  unfold RelativeStrengthIndex.update
  rw [h.last]
  rcases prices.eq_nil_or_concat with rfl | ⟨prices, last_price, rfl⟩
  · exact ⟨h.period, rfl, h.gains, h.losses, h.sum_gains, h.sum_losses⟩
  · rw [List.concat_eq_append] at h ⊢
    rw [List.getLast?_concat]
    exact h.push

/-- The indicator after some prices. -/
def after (p : ℕ) (prices : List ℚ) : RelativeStrengthIndex :=
  prices.foldl (fun r price => r.update price) { period_ := p }

theorem holds_after (p : ℕ) (prices : List ℚ) : Holds p prices (after p prices) := by
  induction prices using List.reverseRecOn with
  | nil => exact Holds.start p
  | append_singleton prices price ih =>
    unfold after at ih ⊢
    rw [List.foldl_concat]
    exact ih.update price

/-! ## The value -/

/-- The relative strength index of some prices with the period `p`: none before there are `p`
changes, and then what the last `p` changes gained as a part of all that they moved, in percent.
Nothing is said of changes without a loss. -/
structure IsIndex (p : ℕ) (prices : List ℚ) (value : Option (Option ℚ)) : Prop where
  none_iff : value = none ↔ prices.length < p + 1
  percent : p + 1 ≤ prices.length →
    let window := (changes prices).rtake p
    0 < lost window →
      value = some (some (100 * gained window / (gained window + lost window))) ∧
      0 ≤ 100 * gained window / (gained window + lost window) ∧
      100 * gained window / (gained window + lost window) ≤ 100

theorem Holds.full_iff {p : ℕ} (hp : 1 ≤ p) {prices : List ℚ} {r : RelativeStrengthIndex}
    (h : Holds p prices r) : r.period_ = r.gains_.length ↔ p + 1 ≤ prices.length := by
  rw [h.period, h.gains, List.length_map, length_rtake, length_changes]
  omega

theorem Holds.isIndex {p : ℕ} (hp : 1 ≤ p) {prices : List ℚ} {r : RelativeStrengthIndex}
    (h : Holds p prices r) : IsIndex p prices r.value := by
  by_cases hfull : p + 1 ≤ prices.length
  · have hvalue : r.value = if r.sum_loss_ = 0 then
        if r.sum_gain_ = 0 then some none else some (some 100)
        else some (some (100 - 100 / (1 + r.sum_gain_ / r.sum_loss_))) :=
      if_neg (not_not.mpr ((h.full_iff hp).mpr hfull))
    refine ⟨iff_of_false ?_ (by omega), fun _ => ?_⟩
    · rw [hvalue]
      split_ifs <;> exact not_false
    · intro window hloss
      have hgain : r.sum_gain_ = gained window := by rw [h.sum_gains, h.gains, sum_gain]
      have hlost : r.sum_loss_ = lost window := by rw [h.sum_losses, h.losses, sum_loss]
      have hnonneg := gained_nonneg window
      have hpos : 0 < gained window + lost window := by linarith
      rw [hvalue, if_neg (by rw [hlost]; exact hloss.ne'), hgain, hlost]
      refine ⟨?_, by positivity, ?_⟩
      · congr 2
        field_simp
        ring
      · rw [div_le_iff₀ hpos]
        linarith
  · have hvalue : r.value = none := if_pos fun heq => hfull ((h.full_iff hp).mp heq)
    exact ⟨iff_of_true hvalue (by omega), fun h => absurd h hfull⟩

end RelativeStrengthIndex

/-! ## The strategy -/

/-- A call that the engine makes of the strategy. -/
inductive Callback
  | update (candle : Candle)
  | on_order_filled (index : OrderIndex)

/-- The price that the call brings. -/
def Callback.close_price : Callback → Option ℚ
  | .update candle => some candle.close_price
  | .on_order_filled _ => none

namespace GridStrategy

variable {g g' : GridStrategy}

theorem index_of_place_buy {price volume : ℚ} (h : g' ∈ (g.place_buy_order price volume).results) :
    g'.index_ = g.index_ := by
  unfold place_buy_order at h
  split at h
  · exact h.elim
  · obtain ⟨order_id, -, h⟩ := mem_results_bind.mp h
    cases h
    rfl

theorem index_of_place_sell {price volume : ℚ}
    (h : g' ∈ (g.place_sell_order price volume).results) : g'.index_ = g.index_ := by
  unfold place_sell_order at h
  split at h
  · exact h.elim
  · obtain ⟨order_id, -, h⟩ := mem_results_bind.mp h
    cases h
    rfl

theorem index_of_cancel (h : g' ∈ g.cancel_all_orders.results) : g'.index_ = g.index_ := by
  obtain ⟨g1, h1, h2⟩ := mem_results_bind.mp h
  have hbuy : g1.index_ = g.index_ := by
    unfold cancel_buy_order at h1
    split at h1
    · exact congrArg index_ h1
    · obtain ⟨_, -, h1⟩ := mem_results_bind.mp h1
      cases h1
      rfl
  have hsell : g'.index_ = g1.index_ := by
    unfold cancel_sell_order at h2
    split at h2
    · exact congrArg index_ h2
    · obtain ⟨_, -, h2⟩ := mem_results_bind.mp h2
      cases h2
      rfl
  exact hsell.trans hbuy

theorem index_of_initial {price : ℚ} (h : g' ∈ (g.place_initial_orders price).results) :
    g'.index_ = g.index_ := by
  obtain ⟨account, -, h⟩ := mem_results_bind.mp h
  dsimp only at h
  split_ifs at h
  · exact (index_of_place_buy h).trans rfl
  · exact (index_of_place_sell h).trans rfl
  · exact (index_of_place_buy h).trans rfl

/-- The prices go to the indicator, and nothing else changes it. -/
theorem index_of_update {candle : Candle} (h : g' ∈ (g.update candle).results) :
    g'.index_ = g.index_.update candle.close_price := by
  unfold update at h
  dsimp only at h
  split at h
  · cases h
    rfl
  · split_ifs at h
    · exact (index_of_cancel h).trans rfl
    · exact (index_of_initial h).trans rfl
    · obtain ⟨g1, h1, h⟩ := mem_results_bind.mp h
      exact (index_of_initial h).trans (index_of_cancel h1)
    · cases h
      rfl

theorem index_of_take_buy (g : GridStrategy) (index : OrderIndex) :
    (g.take_filled_buy index).2.index_ = g.index_ := by
  unfold take_filled_buy
  split
  · rfl
  · split <;> rfl

theorem index_of_take_sell (g : GridStrategy) (index : OrderIndex) :
    (g.take_filled_sell index).2.index_ = g.index_ := by
  unfold take_filled_sell
  split
  · rfl
  · split <;> rfl

theorem index_of_order_filled {to_float : ℚ → ℚ} {index : OrderIndex}
    (h : g' ∈ (g.on_order_filled to_float index).results) : g'.index_ = g.index_ := by
  have htaken : ((g.take_filled_buy index).2.take_filled_sell index).2.index_ = g.index_ :=
    (index_of_take_sell _ index).trans (index_of_take_buy g index)
  unfold on_order_filled at h
  dsimp only at h
  split at h
  · exact h.elim
  · obtain ⟨g1, h1, h⟩ := mem_results_bind.mp h
    obtain ⟨g2, h2, h⟩ := mem_results_bind.mp h
    calc g'.index_ = g2.index_ := index_of_place_buy h
      _ = g1.index_ := index_of_place_sell h2
      _ = ((g.take_filled_buy index).2.take_filled_sell index).2.index_ := index_of_cancel h1
      _ = g.index_ := htaken

/-- The program of a call. -/
def on_callback (to_float : ℚ → ℚ) (g : GridStrategy) : Callback → StrategyProg GridStrategy
  | .update candle => g.update candle
  | .on_order_filled index => g.on_order_filled to_float index

/-- A call that returns, with some broker. -/
def Step (to_float : ℚ → ℚ) (g : GridStrategy) (call : Callback) (g' : GridStrategy) : Prop :=
  ∃ (σ : Type) (broker : Handler BrokerCall BrokerCall.Answer Fault σ) (s t : σ),
    run broker (g.on_callback to_float call) s = (.ok g', t)

theorem index_of_run {to_float : ℚ → ℚ} {calls : List Callback}
    (h : Run (Step to_float) g calls g') :
    g'.index_ = (calls.filterMap Callback.close_price).foldl (fun r price => r.update price)
      g.index_ := by
  induction h with
  | nil => rfl
  | @cons g _ _ call _ hstep _ ih =>
    obtain ⟨σ, broker, s, t, hrun⟩ := hstep
    have hresult := mem_results_of_run hrun
    cases call with
    | update candle =>
      rw [ih, index_of_update hresult]
      rfl
    | on_order_filled index =>
      rw [ih, index_of_order_filled hresult]
      rfl

theorem index_of_start (order_volume : ℚ) (json : StrategyConfig) :
    (start order_volume json).index_ = RelativeStrengthIndex.after 20 (json.rsi_price.getD []) := by
  unfold start from_json
  cases json.rsi_price <;> rfl

end GridStrategy

/-- The indicator of every period gives the relative strength index of the prices that it got. The
strategy's is of period 20, and its prices are the history of the configuration and the closes of
the candles so far. -/
theorem the_value_is_the_index :
    (∀ p prices, 1 ≤ p →
      RelativeStrengthIndex.IsIndex p prices (RelativeStrengthIndex.after p prices).value) ∧
    ∀ to_float order_volume json calls g,
      Run (GridStrategy.Step to_float) (GridStrategy.start order_volume json) calls g →
      RelativeStrengthIndex.IsIndex 20
        (json.rsi_price.getD [] ++ calls.filterMap Callback.close_price) g.index_.value := by
  refine ⟨fun p prices hp => (RelativeStrengthIndex.holds_after p prices).isIndex hp,
    fun to_float order_volume json calls g hrun => ?_⟩
  rw [GridStrategy.index_of_run hrun, GridStrategy.index_of_start]
  have h := RelativeStrengthIndex.holds_after 20
    (json.rsi_price.getD [] ++ calls.filterMap Callback.close_price)
  unfold RelativeStrengthIndex.after at h ⊢
  rw [List.foldl_append] at h
  exact h.isIndex (by decide)

example : (RelativeStrengthIndex.after 2 [100, 103, 102]).value = some (some 75) := by
  decide +kernel

/-- A configuration with one price. -/
def one_price : StrategyConfig :=
  { grid_count := 5, grid_spacing := 1 / 100, rsi_price := some [100] }

/-- Two changes with the period 2, and a strategy that gets its first candle. -/
theorem the_index_of_a_first_candle :
    RelativeStrengthIndex.IsIndex 2 [100, 103, 102]
        (RelativeStrengthIndex.after 2 [100, 103, 102]).value ∧
      RelativeStrengthIndex.IsIndex 20 [100, 103]
        ((GridStrategy.start 0 one_price).index_.update 103).value :=
  ⟨the_value_is_the_index.1 2 [100, 103, 102] (by decide),
    the_value_is_the_index.2 id 0 one_price [.update (flat_candle 103)]
      { GridStrategy.start 0 one_price with
        index_ := (GridStrategy.start 0 one_price).index_.update 103 }
      (.single ⟨Unit, fun _ s => (.error .abort, s), (), (), rfl⟩)⟩

end wedge
