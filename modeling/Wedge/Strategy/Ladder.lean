-- The ladder of the grid strategy. Its prices are whole numbers of spacings away from
-- the baseline, and its two orders stand around the price of the last one that filled.
import Wedge.Strategy.Rsi
import Wedge.Strategy.Slots

namespace wedge

open programs

namespace GridStrategy

/-! ## What each function can return -/

section results

variable {to_float : ℚ → ℚ} {g g' : GridStrategy} {price volume : ℚ}

theorem result_of_place_buy (h : g' ∈ (g.place_buy_order price volume).results) :
    ∃ i, g' = { g with buy_order_ := some { index := i, price := price } } := by
  unfold place_buy_order at h
  split at h
  · exact h.elim
  · obtain ⟨i, -, h⟩ := mem_results_bind.mp h
    exact ⟨i, h⟩

theorem result_of_place_sell (h : g' ∈ (g.place_sell_order price volume).results) :
    ∃ i, g' = { g with sell_order_ := some { index := i, price := price } } := by
  unfold place_sell_order at h
  split at h
  · exact h.elim
  · obtain ⟨i, -, h⟩ := mem_results_bind.mp h
    exact ⟨i, h⟩

/-- A strategy without orders. -/
def emptied (g : GridStrategy) : GridStrategy := { g with buy_order_ := none, sell_order_ := none }

theorem result_of_cancel (h : g' ∈ g.cancel_all_orders.results) : g' = g.emptied := by
  obtain ⟨g1, h1, h2⟩ := mem_results_bind.mp h
  have hbuy : g1 = { g with buy_order_ := none } := by
    unfold cancel_buy_order at h1
    split at h1
    · rename_i hb
      cases h1
      rw [← hb]
    · obtain ⟨_, -, h1⟩ := mem_results_bind.mp h1
      exact h1
  subst hbuy
  unfold cancel_sell_order at h2
  split at h2
  · rename_i hs
    cases h2
    rw [emptied, ← hs]
  · obtain ⟨_, -, h2⟩ := mem_results_bind.mp h2
    exact h2

/-- The first order of a ladder stands at the given price. -/
theorem result_of_initial (h : g' ∈ (g.place_initial_orders price).results) :
    ∃ volume i, g' = { g with
        order_volume_ := volume
        order_balance := 0
        buy_order_ := some { index := i, price := price } } ∨
      g' = { g with
        order_volume_ := volume
        order_balance := 0
        sell_order_ := some { index := i, price := price } } := by
  obtain ⟨account, -, h⟩ := mem_results_bind.mp h
  dsimp only at h
  split_ifs at h
  · obtain ⟨i, rfl⟩ := result_of_place_buy h
    exact ⟨_, i, Or.inl rfl⟩
  · obtain ⟨i, rfl⟩ := result_of_place_sell h
    exact ⟨_, i, Or.inr rfl⟩
  · obtain ⟨i, rfl⟩ := result_of_place_buy h
    exact ⟨_, i, Or.inl rfl⟩

theorem result_of_place_order (h : g' ∈ (g.place_order to_float price).results) :
    ∃ i j, g' = { g with
      sell_order_ := some {
        index := i, price := price + to_float (g.grid_spacing_ * g.baseline_price_) }
      buy_order_ := some {
        index := j, price := price - to_float (g.grid_spacing_ * g.baseline_price_) } } := by
  obtain ⟨g1, h1, h2⟩ := mem_results_bind.mp h
  obtain ⟨i, rfl⟩ := result_of_place_sell h1
  obtain ⟨j, rfl⟩ := result_of_place_buy h2
  exact ⟨i, j, rfl⟩

end results

/-! ## The ladder -/

/-- The distance of two rungs. -/
def spacing (to_float : ℚ → ℚ) (g : GridStrategy) : ℚ :=
  to_float (g.grid_spacing_ * g.baseline_price_)

/-- The price `k` spacings above the baseline. -/
def rung (to_float : ℚ → ℚ) (g : GridStrategy) (k : ℤ) : ℚ :=
  g.baseline_price_ + k * g.spacing to_float

/-- Where the orders of the slots stand, with the price of the last filled order: there are none,
or there is the first one, at the baseline, or there are two, one rung below that price and one
rung above it. -/
inductive OnLadder (to_float : ℚ → ℚ) (last : Option ℚ) (g : GridStrategy) : Prop
  | off : g.buy_order_ = none → g.sell_order_ = none → OnLadder to_float last g
  | first_buy {i : OrderIndex} :
      g.buy_order_ = some { index := i, price := g.baseline_price_ } → g.sell_order_ = none →
      OnLadder to_float last g
  | first_sell {i : OrderIndex} : g.buy_order_ = none →
      g.sell_order_ = some { index := i, price := g.baseline_price_ } → OnLadder to_float last g
  | pair (k : ℤ) {i j : OrderIndex} : last = some (g.rung to_float k) →
      g.buy_order_ = some { index := i, price := g.rung to_float (k - 1) } →
      g.sell_order_ = some { index := j, price := g.rung to_float (k + 1) } →
      OnLadder to_float last g

section ladder

variable {to_float : ℚ → ℚ} {last : Option ℚ} {g g' : GridStrategy}

theorem rung_below (k : ℤ) : g.rung to_float (k - 1) = g.rung to_float k - g.spacing to_float := by
  unfold rung
  push_cast
  ring

theorem rung_above (k : ℤ) : g.rung to_float (k + 1) = g.rung to_float k + g.spacing to_float := by
  unfold rung
  push_cast
  ring

theorem rung_zero : g.rung to_float 0 = g.baseline_price_ := by
  simp [rung]

/-- A filled order leaves its slot, the other slot is canceled, and two new orders stand around
the price of the filled one. -/
theorem result_of_filled {index : OrderIndex} {side : OrderSide} {price : ℚ}
    (happart : ∀ b s, g.buy_order_ = some b → g.sell_order_ = some s → b.index ≠ s.index)
    (hslot : (index, some (side, price)) ∈ g.slots)
    (hg : g' ∈ (g.on_order_filled to_float index).results) :
    ∃ balance i j, g' = { g with
      order_balance := balance
      sell_order_ := some { index := i, price := price + g.spacing to_float }
      buy_order_ := some { index := j, price := price - g.spacing to_float } } := by
  unfold on_order_filled at hg
  rcases mem_slots.mp hslot with ⟨rfl, hb⟩ | ⟨rfl, hs⟩
  · have hbuy : g.take_filled_buy index = (some price, { g with
        buy_order_ := none, order_balance := g.order_balance + 1 }) := by
      simp [take_filled_buy, hb]
    have hsell : ∀ g1 : GridStrategy, g1.sell_order_ = g.sell_order_ →
        g1.take_filled_sell index = (none, g1) := by
      intro g1 h1
      unfold take_filled_sell
      rw [h1]
      rcases hs : g.sell_order_ with _ | s
      · rfl
      · exact if_neg (happart _ _ hb hs).symm
    simp only [hbuy, hsell { g with buy_order_ := none, order_balance := g.order_balance + 1 } rfl,
      Option.none_or] at hg
    obtain ⟨g1, h1, hg⟩ := mem_results_bind.mp hg
    obtain rfl := result_of_cancel h1
    obtain ⟨i, j, rfl⟩ := result_of_place_order hg
    exact ⟨_, i, j, rfl⟩
  · have hbuy : g.take_filled_buy index = (none, g) := by
      unfold take_filled_buy
      rcases hb : g.buy_order_ with _ | b
      · rfl
      · exact if_neg (happart _ _ hb hs)
    have hsell : g.take_filled_sell index = (some price, { g with
        sell_order_ := none, order_balance := g.order_balance - 1 }) := by
      simp [take_filled_sell, hs]
    simp only [hbuy, hsell, Option.some_or] at hg
    obtain ⟨g1, h1, hg⟩ := mem_results_bind.mp hg
    obtain rfl := result_of_cancel h1
    obtain ⟨i, j, rfl⟩ := result_of_place_order hg
    exact ⟨_, i, j, rfl⟩

namespace OnLadder

theorem start (order_volume : ℚ) (json : StrategyConfig) :
    (start order_volume json).OnLadder to_float last := by
  unfold GridStrategy.start from_json
  cases json.rsi_price <;> exact .off rfl rfl

/-- The indicator is no part of the ladder. -/
theorem indicator (h : g.OnLadder to_float last) (index : RelativeStrengthIndex) :
    OnLadder to_float last { g with index_ := index } := by
  cases h with
  | off hb hs => exact .off hb hs
  | first_buy hb hs => exact .first_buy hb hs
  | first_sell hb hs => exact .first_sell hb hs
  | pair k hlast hb hs => exact .pair k hlast hb hs

/-- A first order, when there is none. -/
theorem initial {price : ℚ} (h : g' ∈ (g.place_initial_orders price).results)
    (hprice : g.baseline_price_ = price) (hb : g.buy_order_ = none) (hs : g.sell_order_ = none) :
    g'.OnLadder to_float last := by
  subst hprice
  obtain ⟨volume, i, rfl | rfl⟩ := result_of_initial h
  · exact .first_buy rfl hs
  · exact .first_sell hb rfl

theorem update {candle : Candle} (h : g.OnLadder to_float last)
    (hg : g' ∈ (g.update candle).results) : g'.OnLadder to_float last := by
  unfold GridStrategy.update at hg
  dsimp only at hg
  split at hg
  · cases hg
    exact h.indicator _
  · split_ifs at hg with _ hempty
    · rw [result_of_cancel hg]
      exact .off rfl rfl
    · refine initial hg rfl ?_ ?_
      · exact Option.isNone_iff_eq_none.mp hempty.2
      · exact Option.isNone_iff_eq_none.mp hempty.1
    · obtain ⟨g1, h1, hg⟩ := mem_results_bind.mp hg
      obtain rfl := result_of_cancel h1
      exact initial hg rfl rfl rfl
    · cases hg
      exact h.indicator _

/-- The price of a slot is a rung. -/
theorem slot {index : OrderIndex} {side : OrderSide} {price : ℚ} (h : g.OnLadder to_float last)
    (hslot : (index, some (side, price)) ∈ g.slots) : ∃ k, price = g.rung to_float k := by
  rcases mem_slots.mp hslot with ⟨rfl, hbuy⟩ | ⟨rfl, hsell⟩
  · cases h with
    | off hb _ => cases hbuy.symm.trans hb
    | first_buy hb _ =>
      cases hbuy.symm.trans hb
      exact ⟨0, rung_zero.symm⟩
    | first_sell hb _ => cases hbuy.symm.trans hb
    | pair k _ hb _ =>
      cases hbuy.symm.trans hb
      exact ⟨_, rfl⟩
  · cases h with
    | off _ hs => cases hsell.symm.trans hs
    | first_buy _ hs => cases hsell.symm.trans hs
    | first_sell _ hs =>
      cases hsell.symm.trans hs
      exact ⟨0, rung_zero.symm⟩
    | pair k _ _ hs =>
      cases hsell.symm.trans hs
      exact ⟨_, rfl⟩

/-- Two new orders around the price of the one that filled. -/
theorem filled {index : OrderIndex} {side : OrderSide} {price : ℚ} (h : g.OnLadder to_float last)
    (happart : ∀ b s, g.buy_order_ = some b → g.sell_order_ = some s → b.index ≠ s.index)
    (hslot : (index, some (side, price)) ∈ g.slots)
    (hg : g' ∈ (g.on_order_filled to_float index).results) :
    g'.OnLadder to_float (some price) := by
  obtain ⟨k, rfl⟩ := h.slot hslot
  obtain ⟨balance, i, j, rfl⟩ := result_of_filled happart hslot hg
  refine .pair k (i := j) (j := i) rfl ?_ ?_
  · rw [rung_below]
    rfl
  · rw [rung_above]
    rfl

end OnLadder

end ladder

end GridStrategy

/-! ## In and out of the market -/

/-- The indicator keeps the strategy out of the market: it has no value yet, or one below 20. -/
def RelativeStrengthIndex.Stops (r : RelativeStrengthIndex) : Prop :=
  r.value.elim True fun value => is_below 20 value = true

instance (r : RelativeStrengthIndex) : Decidable r.Stops := by
  unfold RelativeStrengthIndex.Stops
  cases r.value <;> simp only [Option.elim] <;> infer_instance

/-- Once there is a value, there is one after each price. -/
theorem RelativeStrengthIndex.value_stays {r : RelativeStrengthIndex} (price : ℚ)
    (h : r.value ≠ none) : (r.update price).value ≠ none := by
  have hsome : ∀ r : RelativeStrengthIndex, r.value ≠ none ↔ r.period_ = r.gains_.length := by
    intro r
    unfold value
    split_ifs <;> simp_all
  rw [hsome] at h ⊢
  unfold update
  split
  · exact h
  · simp [push, h]

namespace GridStrategy

/-- There is no order while the indicator stops the strategy. -/
def Out (g : GridStrategy) : Prop :=
  g.index_.Stops → g.buy_order_ = none ∧ g.sell_order_ = none

/-- There is an order while it does not. -/
def In (g : GridStrategy) : Prop :=
  g.index_.Stops ∨ g.buy_order_ ≠ none ∨ g.sell_order_ ≠ none

section market

variable {g g' : GridStrategy}

theorem out_start (order_volume : ℚ) (json : StrategyConfig) : (start order_volume json).Out := by
  intro _
  unfold start from_json
  cases json.rsi_price <;> exact ⟨rfl, rfl⟩

theorem result_of_initial_in {price : ℚ} (h : g' ∈ (g.place_initial_orders price).results) :
    g'.buy_order_ ≠ none ∨ g'.sell_order_ ≠ none := by
  obtain ⟨volume, i, rfl | rfl⟩ := result_of_initial h
  · exact Or.inl nofun
  · exact Or.inr nofun

/-- After `update` the indicator alone decides. -/
theorem update_decides {candle : Candle} (h : g.Out) (hg : g' ∈ (g.update candle).results) :
    g'.Out ∧ g'.In := by
  have hindex := index_of_update hg
  unfold update at hg
  dsimp only at hg
  split at hg
  · rename_i hnone
    cases hg
    have hold : g.index_.value = none :=
      by_contra fun hsome => RelativeStrengthIndex.value_stays candle.close_price hsome hnone
    have hstops : g.index_.Stops := by simp [RelativeStrengthIndex.Stops, hold]
    refine ⟨fun _ => h hstops, Or.inl ?_⟩
    simp [RelativeStrengthIndex.Stops, hnone]
  · rename_i value hvalue
    have hiff : g'.index_.Stops ↔ is_below 20 value = true := by
      rw [hindex, RelativeStrengthIndex.Stops, hvalue]
      rfl
    split_ifs at hg with hlow hempty
    · rw [result_of_cancel hg] at hiff ⊢
      exact ⟨fun _ => ⟨rfl, rfl⟩, Or.inl (hiff.mpr hlow)⟩
    · exact ⟨fun hstops => absurd (hiff.mp hstops) hlow, Or.inr (result_of_initial_in hg)⟩
    · obtain ⟨g1, _, hg⟩ := mem_results_bind.mp hg
      exact ⟨fun hstops => absurd (hiff.mp hstops) hlow, Or.inr (result_of_initial_in hg)⟩
    · cases hg
      refine ⟨fun hstops => absurd (hiff.mp hstops) hlow, Or.inr ?_⟩
      rw [not_and_or, Option.isNone_iff_eq_none, Option.isNone_iff_eq_none] at hempty
      exact hempty.symm

/-- A fill is reported only while the indicator does not stop the strategy. -/
theorem filled_goes {to_float : ℚ → ℚ} {index : OrderIndex} (h : g.Out)
    (hg : g' ∈ (g.on_order_filled to_float index).results) : ¬ g'.index_.Stops := by
  rw [index_of_order_filled hg]
  intro hstops
  obtain ⟨hb, hs⟩ := h hstops
  rw [on_order_filled, take_filled_buy, hb] at hg
  simp only [take_filled_sell, hs] at hg
  exact hg

/-- A report changes nothing about it. -/
theorem filled_decides {to_float : ℚ → ℚ} {index : OrderIndex} (h : g.Out)
    (hg : g' ∈ (g.on_order_filled to_float index).results) : g'.Out ∧ g'.In := by
  refine ⟨fun hstops => absurd hstops (filled_goes h hg), Or.inr (Or.inl ?_)⟩
  unfold on_order_filled at hg
  dsimp only at hg
  split at hg
  · exact hg.elim
  · obtain ⟨g1, _, hg⟩ := mem_results_bind.mp hg
    obtain ⟨i, j, rfl⟩ := result_of_place_order hg
    exact nofun

end market

end GridStrategy

end wedge
