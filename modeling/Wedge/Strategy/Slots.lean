-- The slots of the grid strategy and the orders that its engine tracks. While
-- an engine reports a filled order, that order is in its map and in no slot.
-- Every callback of the strategy keeps the two sides in step.
import Wedge.Lib.Containers
import Wedge.Strategy.Grid

namespace wedge

open programs containers

/-- The side and the price of a limit order. -/
def OrderCall.limit : OrderCall → Option (OrderSide × ℚ)
  | .limit_buy_order _ price => some (.kBuy, price)
  | .limit_sell_order _ price => some (.kSell, price)
  | .market_buy_order _ => none
  | .market_sell_order _ => none

/-- An order as both sides know it: its index, and its side and price. -/
abbrev Slot := OrderIndex × Option (OrderSide × ℚ)

/-- The orders in the slots of the strategy. -/
def GridStrategy.slots (g : GridStrategy) : List Slot :=
  (g.buy_order_.map fun o => (o.index, some (OrderSide.kBuy, o.price))).toList ++
    (g.sell_order_.map fun o => (o.index, some (OrderSide.kSell, o.price))).toList

/-- The engine tracks the order that is held aside, the orders of the slots, and no others. -/
structure Coupled (held : Option Slot) (slots : List Slot)
    (tracked : Map OrderIndex OrderCall) : Prop where
  agree : (tracked.view OrderCall.limit).entries.Perm (held.toList ++ slots)

namespace Coupled

variable {held : Option Slot} {x : Slot} {slots rest : List Slot}
  {tracked tracked' : Map OrderIndex OrderCall}

theorem keys_perm (h : Coupled held slots tracked) :
    tracked.keys.Perm (held.toList.map Prod.fst ++ slots.map Prod.fst) := by
  have h1 := h.agree.map Prod.fst
  rw [List.map_append] at h1
  rw [← Map.keys_view OrderCall.limit tracked]
  exact h1

theorem indices_nodup (h : Coupled held slots tracked) :
    (held.toList.map Prod.fst ++ slots.map Prod.fst).Nodup :=
  h.keys_perm.nodup_iff.mp tracked.distinct

theorem mem_keys_iff (h : Coupled held slots tracked) {i : OrderIndex} :
    i ∈ tracked.keys ↔ i ∈ slots.map Prod.fst ∨ held.map Prod.fst = some i := by
  rw [h.keys_perm.mem_iff, List.mem_append, or_comm]
  cases held <;> simp [eq_comm]

/-- The order of a slot is tracked, and it is not the one that is held aside. -/
theorem slot_tracked (h : Coupled held slots tracked) (hx : x ∈ slots) :
    x.1 ∈ tracked.keys ∧ held.map Prod.fst ≠ some x.1 := by
  have hmem : x.1 ∈ slots.map Prod.fst := List.mem_map_of_mem hx
  refine ⟨h.mem_keys_iff.mpr (Or.inl hmem), ?_⟩
  rcases held with _ | y
  · simp
  · have hne := (List.nodup_append.mp h.indices_nodup).2.2 y.1 (by simp) x.1 hmem
    simpa using hne

theorem slot_price (h : Coupled held slots tracked) (hx : x ∈ slots) :
    ∃ order, (x.1, order) ∈ tracked ∧ order.limit = x.2 := by
  have hmem := h.agree.mem_iff.mpr (List.mem_append_right _ hx)
  obtain ⟨e, he, rfl⟩ := List.mem_map.mp hmem
  exact ⟨e.2, he, rfl⟩

theorem init : Coupled none [] ∅ := ⟨.refl _⟩

/-- A filled order leaves its slot and is held aside. -/
theorem hold (h : Coupled none slots tracked) (hs : slots.Perm (x :: rest)) :
    Coupled (some x) rest tracked := ⟨h.agree.trans hs⟩

theorem erase (h : (tracked.view OrderCall.limit).entries.Perm (x :: (held.toList ++ rest))) :
    Coupled held rest (tracked.erase x.1) := by
  refine ⟨?_⟩
  rw [← Map.erase_view]
  exact Map.erase_perm h

/-- The engine forgets the order that is held aside. -/
theorem release (h : Coupled (some x) slots tracked) : Coupled none slots (tracked.erase x.1) :=
  erase h.agree

theorem cancel (h : Coupled held slots tracked) (hs : slots.Perm (x :: rest)) :
    Coupled held rest (tracked.erase x.1) :=
  erase (h.agree.trans ((hs.append_left _).trans List.perm_middle))

theorem place (h : Coupled held slots tracked) {i : OrderIndex} {order : OrderCall}
    (ht : tracked'.entries.Perm ((i, order) :: tracked.entries))
    (hs : rest.Perm ((i, order.limit) :: slots)) : Coupled held rest tracked' := by
  refine ⟨?_⟩
  have h1 : (tracked'.view OrderCall.limit).entries.Perm
      ((i, order.limit) :: (held.toList ++ slots)) := (ht.map _).trans (h.agree.cons _)
  exact h1.trans (List.perm_middle.symm.trans (hs.symm.append_left _))

end Coupled

/-- The agreement between the strategy and its engine. The indices of the slots are the keys of
the map, but for the order that is reported now, which is in no slot. The price of a slot is the
limit price that its order was placed with. -/
structure Agrees (reported : Option OrderIndex) (g : GridStrategy)
    (tracked : Map OrderIndex OrderCall) : Prop where
  indices : ∀ i, i ∈ tracked.keys ↔
    (∃ o, (g.buy_order_ = some o ∨ g.sell_order_ = some o) ∧ o.index = i) ∨ reported = some i
  apart : ∀ o, g.buy_order_ = some o ∨ g.sell_order_ = some o → reported ≠ some o.index
  buys : ∀ o, g.buy_order_ = some o → ∃ quantity,
    tracked.find o.index = some (.limit_buy_order quantity o.price)
  sells : ∀ o, g.sell_order_ = some o → ∃ quantity,
    tracked.find o.index = some (.limit_sell_order quantity o.price)

theorem GridStrategy.start_slots (order_volume : ℚ) (json : StrategyConfig) :
    (GridStrategy.start order_volume json).slots = [] := by
  unfold GridStrategy.start GridStrategy.from_json
  cases json.rsi_price <;> rfl

theorem Coupled.start (order_volume : ℚ) (json : StrategyConfig) :
    Coupled none (GridStrategy.start order_volume json).slots ∅ := by
  rw [GridStrategy.start_slots]
  exact Coupled.init

theorem GridStrategy.buy_slot {g : GridStrategy} {o : OrderInfo} (h : g.buy_order_ = some o) :
    (o.index, some (OrderSide.kBuy, o.price)) ∈ g.slots := by
  simp [GridStrategy.slots, h]

theorem GridStrategy.sell_slot {g : GridStrategy} {o : OrderInfo} (h : g.sell_order_ = some o) :
    (o.index, some (OrderSide.kSell, o.price)) ∈ g.slots := by
  simp [GridStrategy.slots, h]

theorem GridStrategy.mem_slots {g : GridStrategy} {i : OrderIndex} {side : OrderSide} {price : ℚ} :
    (i, some (side, price)) ∈ g.slots ↔
      side = .kBuy ∧ g.buy_order_ = some { index := i, price := price } ∨
      side = .kSell ∧ g.sell_order_ = some { index := i, price := price } := by
  unfold GridStrategy.slots
  simp only [List.mem_append, Option.mem_toList, Option.map_eq_some_iff, Prod.mk.injEq,
    Option.some.injEq]
  constructor
  · rintro (⟨o, ho, rfl, rfl, rfl⟩ | ⟨o, ho, rfl, rfl, rfl⟩)
    · exact Or.inl ⟨rfl, ho⟩
    · exact Or.inr ⟨rfl, ho⟩
  · rintro (⟨rfl, ho⟩ | ⟨rfl, ho⟩)
    · exact Or.inl ⟨_, ho, rfl, rfl, rfl⟩
    · exact Or.inr ⟨_, ho, rfl, rfl, rfl⟩

theorem GridStrategy.slot_limit {g : GridStrategy} {slot : Slot} (h : slot ∈ g.slots) :
    ∃ side price, slot.2 = some (side, price) := by
  unfold GridStrategy.slots at h
  rcases List.mem_append.mp h with h | h
  · obtain ⟨o, _, rfl⟩ := Option.map_eq_some_iff.mp (Option.mem_toList.mp h)
    exact ⟨_, _, rfl⟩
  · obtain ⟨o, _, rfl⟩ := Option.map_eq_some_iff.mp (Option.mem_toList.mp h)
    exact ⟨_, _, rfl⟩

theorem GridStrategy.mem_slot_indices {g : GridStrategy} {i : OrderIndex} :
    i ∈ g.slots.map Prod.fst ↔
      ∃ o, (g.buy_order_ = some o ∨ g.sell_order_ = some o) ∧ o.index = i := by
  rcases hb : g.buy_order_ with _ | b <;> rcases hs : g.sell_order_ with _ | o <;>
    simp [GridStrategy.slots, hb, hs, or_and_right, exists_or, eq_comm]

theorem Coupled.agrees {held : Option Slot} {g : GridStrategy}
    {tracked : Map OrderIndex OrderCall} (h : Coupled held g.slots tracked) :
    Agrees (held.map Prod.fst) g tracked := by
  refine ⟨fun i => ?_, ?_, ?_, ?_⟩
  · rw [h.mem_keys_iff, GridStrategy.mem_slot_indices]
  · rintro o (ho | ho)
    · exact (h.slot_tracked (GridStrategy.buy_slot ho)).2
    · exact (h.slot_tracked (GridStrategy.sell_slot ho)).2
  · intro o ho
    obtain ⟨order, hmem, hlimit⟩ := h.slot_price (GridStrategy.buy_slot ho)
    cases order <;> cases hlimit
    exact ⟨_, Map.find_of_mem hmem⟩
  · intro o ho
    obtain ⟨order, hmem, hlimit⟩ := h.slot_price (GridStrategy.sell_slot ho)
    cases order <;> cases hlimit
    exact ⟨_, Map.find_of_mem hmem⟩

/-! ## The broker of an engine -/

section broker

variable {σ : Type}

/-- A cancel names a tracked order that is not the one in process. -/
def CancelsTracked (tracked : σ → Map OrderIndex OrderCall) (processed : Option OrderIndex) :
    BrokerCall → σ → Prop
  | .cancel index, s => index ∈ (tracked s).keys ∧ processed ≠ some index
  | .place _, _ => True
  | .account, _ => True

/-- What the broker of an engine does with the orders that the engine tracks, as long as the
calls meet `rely` and the engine is in a state of `inv`. The new indices start at `first`. -/
structure Tracker (broker : Handler BrokerCall BrokerCall.Answer Fault σ)
    (tracked : σ → Map OrderIndex OrderCall) (inv : σ → Prop)
    (rely : BrokerCall → σ → Prop) (err : Fault → σ → Prop) (first : OrderIndex)
    (processed : Option OrderIndex) : Prop where
  place : ∀ order s, inv s → rely (.place order) s →
    (∃ (i : OrderIndex) (t : σ), broker (.place order) s = (.ok i, t) ∧ inv t ∧ first ≤ i ∧
      (tracked t).entries.Perm ((i, order) :: (tracked s).entries)) ∨
    ∃ e t, broker (.place order) s = (.error e, t) ∧ err e t
  cancel : ∀ i s, inv s → CancelsTracked tracked processed (.cancel i) s → rely (.cancel i) s →
    (∃ t, broker (.cancel i) s = (.ok (), t) ∧ inv t ∧ tracked t = (tracked s).erase i) ∨
    ∃ e t, broker (.cancel i) s = (.error e, t) ∧ err e t
  account : ∀ s, inv s → rely .account s →
    (∃ (a : Account) (t : σ), broker .account s = (.ok a, t) ∧ inv t ∧ tracked t = tracked s) ∨
    ∃ e t, broker .account s = (.error e, t) ∧ err e t

/-- The state between two calls: the engine is in a state of `inv`, and the slots agree. -/
structure InStep (inv : σ → Prop) (tracked : σ → Map OrderIndex OrderCall)
    (held : Option Slot) (g : GridStrategy) (s : σ) : Prop where
  inv : inv s
  coupled : Coupled held g.slots (tracked s)

theorem InStep.mono {inv inv' : σ → Prop} {tracked : σ → Map OrderIndex OrderCall}
    {held : Option Slot} {g : GridStrategy} {s : σ} (h : InStep inv tracked held g s)
    (himp : inv s → inv' s) : InStep inv' tracked held g s := ⟨himp h.inv, h.coupled⟩

variable {broker : Handler BrokerCall BrokerCall.Answer Fault σ}
  {tracked : σ → Map OrderIndex OrderCall} {inv : σ → Prop} {rely : BrokerCall → σ → Prop}
  {err : Fault → σ → Prop} {first : OrderIndex} {processed : Option OrderIndex}
  {held : Option Slot} {g : GridStrategy} {s : σ}

namespace Tracker

variable (T : Tracker broker tracked inv rely err first processed)
include T

/-- One placement that fills an empty slot. -/
theorem place_slot {order : OrderCall} {fill : OrderIndex → GridStrategy}
    (h : InStep inv tracked held g s)
    (hs : ∀ i, (fill i).slots.Perm ((i, order.limit) :: g.slots)) :
    Safe broker rely (CancelsTracked tracked processed) err
      (Prog.ask (BrokerCall.place order) >>= fun i => return fill i)
      (fun g' t => InStep inv tracked held g' t ∧ ∃ i, first ≤ i ∧ g' = fill i) s := by
  apply Safe.bind
  apply Safe.ask trivial
  intro hr
  rcases T.place order s h.inv hr with ⟨i, t, ho, hinv, hfirst, ht⟩ | he
  · exact Or.inl ⟨i, t, ho, ⟨hinv, h.coupled.place ht (hs i)⟩, i, hfirst, rfl⟩
  · exact Or.inr he

/-- One cancel that empties a slot. -/
theorem cancel_slot {x : Slot} {g' : GridStrategy} (hp : held.map Prod.fst = processed)
    (h : InStep inv tracked held g s) (hs : g.slots.Perm (x :: g'.slots)) :
    Safe broker rely (CancelsTracked tracked processed) err
      (IBroker.cancel x.1 >>= fun _ => return g')
      (fun r t => InStep inv tracked held r t ∧ r = g') s := by
  have hx : CancelsTracked tracked processed (.cancel x.1) s := by
    rw [← hp]
    exact h.coupled.slot_tracked (hs.mem_iff.mpr List.mem_cons_self)
  apply Safe.bind
  apply Safe.ask hx
  intro hr
  rcases T.cancel x.1 s h.inv hx hr with ⟨t, ho, hinv, ht⟩ | he
  · refine Or.inl ⟨(), t, ho, ⟨hinv, ?_⟩, rfl⟩
    rw [ht]
    exact h.coupled.cancel hs
  · exact Or.inr he

theorem cancel_all_orders (hp : held.map Prod.fst = processed) (h : InStep inv tracked held g s) :
    Safe broker rely (CancelsTracked tracked processed) err g.cancel_all_orders
      (fun g' t => InStep inv tracked held g' t ∧ g'.buy_order_ = none ∧ g'.sell_order_ = none)
      s := by
  -- After the first half the buy slot is empty.
  have hbuy : Safe broker rely (CancelsTracked tracked processed) err g.cancel_buy_order
      (fun g' t => InStep inv tracked held g' t ∧ g'.buy_order_ = none) s := by
    unfold GridStrategy.cancel_buy_order
    rcases hb : g.buy_order_ with _ | order
    · exact ⟨h, hb⟩
    · refine (T.cancel_slot (x := (order.index, some (.kBuy, order.price))) hp h ?_).mono ?_
      · simp [GridStrategy.slots, hb]
      · rintro r t ⟨h1, rfl⟩
        exact ⟨h1, rfl⟩
  unfold GridStrategy.cancel_all_orders
  apply Safe.bind
  apply hbuy.mono
  rintro g t ⟨h, hb⟩
  unfold GridStrategy.cancel_sell_order
  rcases hs : g.sell_order_ with _ | order
  · exact ⟨h, hb, hs⟩
  · refine (T.cancel_slot (x := (order.index, some (.kSell, order.price))) hp h ?_).mono ?_
    · simp [GridStrategy.slots, hs, hb]
    · rintro r t ⟨h1, rfl⟩
      exact ⟨h1, hb, rfl⟩

theorem place_buy_order (price volume : ℚ) (h : InStep inv tracked held g s)
    (hb : g.buy_order_ = none) :
    Safe broker rely (CancelsTracked tracked processed) err (g.place_buy_order price volume)
      (fun g' t => InStep inv tracked held g' t ∧ ∃ i, first ≤ i ∧
        g' = { g with buy_order_ := some { index := i, price := price } }) s := by
  unfold GridStrategy.place_buy_order
  rw [hb]
  refine T.place_slot h fun i => ?_
  simp [GridStrategy.slots, hb, OrderCall.limit]

theorem place_sell_order (price volume : ℚ) (h : InStep inv tracked held g s)
    (hs : g.sell_order_ = none) :
    Safe broker rely (CancelsTracked tracked processed) err (g.place_sell_order price volume)
      (fun g' t => InStep inv tracked held g' t ∧ ∃ i, first ≤ i ∧
        g' = { g with sell_order_ := some { index := i, price := price } }) s := by
  unfold GridStrategy.place_sell_order
  rw [hs]
  refine T.place_slot h fun i => ?_
  simp [GridStrategy.slots, hs, OrderCall.limit, List.perm_append_singleton]

theorem place_initial_orders (current_price : ℚ) (h : InStep inv tracked held g s)
    (hb : g.buy_order_ = none) (hs : g.sell_order_ = none) :
    Safe broker rely (CancelsTracked tracked processed) err (g.place_initial_orders current_price)
      (fun g' t => InStep inv tracked held g' t) s := by
  unfold GridStrategy.place_initial_orders
  apply Safe.bind
  apply Safe.ask trivial
  intro hr
  rcases T.account s h.inv hr with ⟨a, t, ho, hinv, ht⟩ | he
  · refine Or.inl ⟨a, t, ho, ?_⟩
    -- The new volume and the new order balance are outside of the slots.
    have h1 : InStep inv tracked held { g with
        order_volume_ := (a.balance + a.position * current_price) / current_price / 2 / g.grid_count_
        order_balance := 0 } t := ⟨hinv, ht ▸ h.coupled⟩
    dsimp only
    split
    · exact (T.place_buy_order _ _ h1 hb).mono fun _ _ h2 => h2.1
    · split
      · exact (T.place_sell_order _ _ h1 hs).mono fun _ _ h2 => h2.1
      · exact (T.place_buy_order _ _ h1 hb).mono fun _ _ h2 => h2.1
  · exact Or.inr he

theorem place_order (to_float : ℚ → ℚ) (filled_price : ℚ) (h : InStep inv tracked held g s)
    (hb : g.buy_order_ = none) (hs : g.sell_order_ = none) :
    Safe broker rely (CancelsTracked tracked processed) err (g.place_order to_float filled_price)
      (fun g' t => InStep inv tracked held g' t ∧ ∀ x ∈ g'.slots, first ≤ x.1) s := by
  unfold GridStrategy.place_order
  apply Safe.bind
  apply (T.place_sell_order _ _ h hs).mono
  rintro _ t ⟨h1, i, hi, rfl⟩
  apply (T.place_buy_order _ _ h1 hb).mono
  rintro _ t' ⟨h2, j, hj, rfl⟩
  refine ⟨h2, ?_⟩
  simp [GridStrategy.slots, hi, hj]

end Tracker

/-! ## The callbacks -/

/-- A tracked order that fills is in one of the slots, and leaves it with its price. -/
theorem take_filled {index : OrderIndex} {tracked : Map OrderIndex OrderCall}
    (h : Coupled none g.slots tracked) (hk : index ∈ tracked.keys) :
    ∃ (x : Slot) (price : ℚ) (g' : GridStrategy), x.1 = index ∧ g.slots.Perm (x :: g'.slots) ∧
      ((g.take_filled_buy index).2.take_filled_sell index).1.or (g.take_filled_buy index).1 =
        some price ∧
      ((g.take_filled_buy index).2.take_filled_sell index).2 = g' := by
  have hnodup : (g.slots.map Prod.fst).Nodup := h.indices_nodup
  have hmem : index ∈ g.slots.map Prod.fst := by
    rcases h.mem_keys_iff.mp hk with h1 | h1
    · exact h1
    · cases h1
  rcases hb : g.buy_order_ with _ | b <;> rcases hs : g.sell_order_ with _ | o <;>
    simp only [GridStrategy.slots, hb, hs, Option.map_some, Option.map_none, Option.toList_some,
      Option.toList_none, List.nil_append, List.append_nil, List.singleton_append, List.map_cons,
      List.map_nil, List.nodup_cons, List.mem_cons, List.not_mem_nil, or_false] at hnodup hmem
  · -- Only the sell slot is taken.
    subst hmem
    refine ⟨(o.index, some (.kSell, o.price)), o.price, _, rfl, ?_, ?_, rfl⟩ <;>
      simp [GridStrategy.take_filled_buy, GridStrategy.take_filled_sell, GridStrategy.slots, hb, hs]
  · subst hmem
    refine ⟨(b.index, some (.kBuy, b.price)), b.price, _, rfl, ?_, ?_, rfl⟩ <;>
      simp [GridStrategy.take_filled_buy, GridStrategy.take_filled_sell, GridStrategy.slots, hb, hs]
  · have hne : b.index ≠ o.index := hnodup.1
    rcases hmem with rfl | rfl
    · refine ⟨(b.index, some (.kBuy, b.price)), b.price, _, rfl, ?_, ?_, rfl⟩ <;>
        simp [GridStrategy.take_filled_buy, GridStrategy.take_filled_sell, GridStrategy.slots, hb,
          hs, hne.symm]
    · refine ⟨(o.index, some (.kSell, o.price)), o.price, _, rfl, ?_, ?_, rfl⟩
      · simp [GridStrategy.take_filled_buy, GridStrategy.take_filled_sell, GridStrategy.slots, hb,
          hs, hne, List.Perm.swap]
      · simp [GridStrategy.take_filled_buy, GridStrategy.take_filled_sell, hb, hs, hne]

/-- `on_order_filled` for a tracked order leaves that order aside, and all orders in the slots
are new. -/
theorem on_order_filled_safe {index : OrderIndex}
    (T : Tracker broker tracked inv rely err first (some index)) (to_float : ℚ → ℚ)
    (h : InStep inv tracked none g s) (hk : index ∈ (tracked s).keys) :
    Safe broker rely (CancelsTracked tracked (some index)) err
      (g.on_order_filled to_float index)
      (fun g' t => ∃ x : Slot, x.1 = index ∧ InStep inv tracked (some x) g' t ∧
        ∀ y ∈ g'.slots, first ≤ y.1) s := by
  obtain ⟨x, price, g', hx, hperm, hprice, hg'⟩ := take_filled h.coupled hk
  unfold GridStrategy.on_order_filled
  simp only [hprice, hg']
  have h1 : InStep inv tracked (some x) g' s := ⟨h.inv, h.coupled.hold hperm⟩
  apply Safe.bind
  apply (T.cancel_all_orders (by simp [hx]) h1).mono
  rintro g' t ⟨h2, hb, hs⟩
  apply (T.place_order to_float price h2 hb hs).mono
  rintro g' t' ⟨h3, hfirst⟩
  exact ⟨x, hx, h3, hfirst⟩

theorem update_safe (T : Tracker broker tracked inv rely err first none) (candle : Candle)
    (h : InStep inv tracked none g s) :
    Safe broker rely (CancelsTracked tracked none) err (g.update candle)
      (fun g' t => InStep inv tracked none g' t) s := by
  unfold GridStrategy.update
  -- The indicator and the baseline are outside of the slots.
  have h1 : ∀ baseline, InStep inv tracked none
      { g with index_ := g.index_.update candle.close_price, baseline_price_ := baseline } s :=
    fun _ => ⟨h.inv, h.coupled⟩
  dsimp only
  split
  · exact h1 g.baseline_price_
  · split
    · exact (T.cancel_all_orders rfl (h1 g.baseline_price_)).mono fun _ _ h2 => h2.1
    · split
      · rename_i hempty
        have hs := Option.isNone_iff_eq_none.mp hempty.1
        have hb := Option.isNone_iff_eq_none.mp hempty.2
        exact T.place_initial_orders _ (h1 _) hb hs
      · split
        · apply Safe.bind
          apply (T.cancel_all_orders rfl (h1 _)).mono
          rintro g' t ⟨h2, hb, hs⟩
          exact T.place_initial_orders _ h2 hb hs
        · exact h1 g.baseline_price_

end broker

end wedge
