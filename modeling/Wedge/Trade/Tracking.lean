-- The two stores of the live engine: its map and the orders on the exchange.
-- The map holds the orders that are open, and those that are filled and that no
-- poll has reported. A cancel keeps this as long as 16 bits hold the order id.
import Wedge.Trade.Bookkeeping

namespace wedge

open programs containers

namespace TradeEngine

/-- The order is open, or it is filled and no poll has reported it. -/
def Awaited (e : TradeEngine Exchange) (order_id : ℕ) : Prop :=
  e.world.is_open order_id ∨ e.world.is_filled order_id ∧ order_id ∉ e.polled

/-- What the map and the exchange know of each other. The order of the index `aside` is polled
as filled, and its entry is still in the map. -/
structure Tracks (aside : Option OrderIndex) (e : TradeEngine Exchange) : Prop where
  fits : e.Fits
  one_index : ∀ i j o o', (i, o) ∈ e.orders_ → (j, o') ∈ e.orders_ →
    o.order_id = o'.order_id → i = j
  polled_filled : ∀ order_id ∈ e.polled, e.world.is_filled order_id
  aside_kept : ∀ i, aside = some i → i ∈ e.orders_.keys
  aside_polled : ∀ i o, aside = some i → (i, o) ∈ e.orders_ → o.order_id ∈ e.polled
  agrees : ∀ order_id, e.Awaited order_id ↔
    ∃ i o, (i, o) ∈ e.orders_ ∧ aside ≠ some i ∧ o.order_id = order_id
  sent : e.world.cancels = e.canceled

/-- The engine after the market has traded. -/
def settled (m : Market) (e : TradeEngine Exchange) : TradeEngine Exchange :=
  { e with world := m.settle e.world }

/-! ## What the engine waits for -/

/-- What trades stays awaited. -/
theorem awaited_settled (m : Market) {e : TradeEngine Exchange}
    (hpolled : ∀ order_id ∈ e.polled, e.world.is_filled order_id) (order_id : ℕ) :
    (e.settled m).Awaited order_id ↔ e.Awaited order_id := by
  constructor
  · rintro (h1 | ⟨h1, hn⟩)
    · exact Or.inl (m.open_settle h1)
    · rcases m.filled_settle h1 with h2 | h2
      · exact Or.inl h2
      · exact Or.inr ⟨h2, hn⟩
  · rintro (h1 | ⟨h1, hn⟩)
    · rcases m.settle_open h1 with h2 | h2
      · exact Or.inl h2
      · refine Or.inr ⟨h2, fun hp => ?_⟩
        exact Market.not_open_of_filled (hpolled order_id hp) h1
    · exact Or.inr ⟨m.settle_closed h1 rfl, hn⟩

/-- A new order is awaited. -/
theorem awaited_create {e : TradeEngine Exchange} {order_id : ℕ}
    (hnew : e.world.state order_id = none) (id : ℕ) :
    Awaited { e with world := e.world.create order_id } id ↔ e.Awaited id ∨ id = order_id := by
  unfold Awaited
  rw [Market.open_create hnew, Market.filled_create hnew, or_right_comm]

/-- A closed order is awaited no longer. -/
theorem awaited_close (e : TradeEngine Exchange) (order_id id : ℕ) :
    Awaited { e with world := e.world.close order_id } id ↔ e.Awaited id ∧ id ≠ order_id := by
  unfold Awaited
  rw [Market.open_close, Market.filled_close]
  tauto

/-- Nor is an order that a poll reports as filled. -/
theorem awaited_polled {e : TradeEngine Exchange} {order_id : ℕ}
    (hf : e.world.is_filled order_id) (id : ℕ) :
    Awaited { e with polled := e.polled ++ [order_id] } id ↔ e.Awaited id ∧ id ≠ order_id := by
  have hclosed := Market.not_open_of_filled hf
  unfold Awaited
  rw [List.mem_append, List.mem_singleton]
  constructor
  · rintro (h1 | ⟨h1, hn⟩)
    · refine ⟨Or.inl h1, ?_⟩
      rintro rfl
      exact hclosed h1
    · exact ⟨Or.inr ⟨h1, fun hp => hn (Or.inl hp)⟩, fun heq => hn (Or.inr heq)⟩
  · rintro ⟨h1 | ⟨h1, hn⟩, hne⟩
    · exact Or.inl h1
    · exact Or.inr ⟨h1, not_or.mpr ⟨hn, hne⟩⟩

namespace Tracks

variable {aside : Option OrderIndex} {e : TradeEngine Exchange}

theorem init (symbol : String) (broker : BinanceBroker) :
    Tracks none { symbol_ := symbol, broker_ := broker, world := {} } := by
  have hempty : ∀ i o, (i, o) ∉ (∅ : Map OrderIndex TradeOrder) := fun _ _ => Map.not_mem_empty _
  refine ⟨fun i hi => absurd hi List.not_mem_nil, fun i _ o _ hi => absurd hi (hempty i o),
    by simp, by simp, by simp, fun order_id => ?_, rfl⟩
  simp [Awaited, Exchange.is_open, Exchange.is_filled, Exchange.state, hempty]

/-- The exchange knows every order of the map. -/
theorem known (h : Tracks aside e) {i : OrderIndex} {o : TradeOrder} (hm : (i, o) ∈ e.orders_) :
    e.world.is_open o.order_id ∨ e.world.is_filled o.order_id := by
  by_cases ha : aside = some i
  · exact Or.inr (h.polled_filled _ (h.aside_polled i o ha hm))
  · rcases (h.agrees o.order_id).mpr ⟨i, o, hm, ha, rfl⟩ with h1 | h1
    · exact Or.inl h1
    · exact Or.inr h1.1

theorem known_state (h : Tracks aside e) {i : OrderIndex} {o : TradeOrder}
    (hm : (i, o) ∈ e.orders_) : ∃ s, e.world.state o.order_id = some s := by
  rcases h.known hm with ⟨s, hs, _⟩ | hs
  · exact ⟨s, hs⟩
  · exact ⟨_, hs⟩

/-- What trades leaves every order where the engine waits for it. -/
theorem settle (m : Market) (h : Tracks aside e) : Tracks aside (e.settled m) := by
  have hpolled : ∀ order_id ∈ e.polled, (m.settle e.world).is_filled order_id :=
    fun order_id hp => m.settle_closed (h.polled_filled order_id hp) rfl
  exact ⟨h.fits, h.one_index, hpolled, h.aside_kept, h.aside_polled,
    fun order_id => (awaited_settled m h.polled_filled order_id).trans (h.agrees order_id), h.sent⟩

/-- A new order has an id that the exchange has not used. -/
theorem place (h : Tracks aside e) (p : Placement OrderIndex TradeOrder) (order : OrderCall)
    {order_id : ℕ} (hnew : e.world.state order_id = none) :
    Tracks aside ({ e with world := e.world.create order_id }.add_order p order order_id).2 := by
  have hw : Fits { e with world := e.world.create order_id } := h.fits
  have hmem : ∀ i o, (i, o) ∈
      ({ e with world := e.world.create order_id }.add_order p order order_id).2.orders_ ↔
      (i = e.last_order_index_ ∧ o = { order_id := order_id, order := order }) ∨
        (i, o) ∈ e.orders_ := by
    intro i o
    rw [← Prod.mk.injEq]
    exact p.mem_emplace h.fits.new
  have hnone : ∀ i o, (i, o) ∈ e.orders_ → o.order_id ≠ order_id := by
    rintro i o hm rfl
    rcases h.known hm with ⟨s, hs, _⟩ | hs
    · rw [hnew] at hs; cases hs
    · rw [Exchange.is_filled, hnew] at hs; cases hs
  have hindex : ∀ o, (e.last_order_index_, o) ∉ e.orders_ :=
    fun o hm => h.fits.new (Map.mem_keys.mpr ⟨o, hm⟩)
  have hother : ∀ i, aside = some i → i ≠ e.last_order_index_ := by
    rintro i ha rfl
    exact h.fits.new (h.aside_kept _ ha)
  refine ⟨hw.add_order p order order_id, ?_, ?_, ?_, ?_, ?_,
    h.sent⟩
  · intro i j o o' hi hj heq
    rcases (hmem i o).mp hi with ⟨rfl, rfl⟩ | hi <;> rcases (hmem j o').mp hj with ⟨rfl, rfl⟩ | hj
    · rfl
    · exact absurd heq.symm (hnone j o' hj)
    · exact absurd heq (hnone i o hi)
    · exact h.one_index i j o o' hi hj heq
  · intro id hid
    exact (Market.filled_create hnew).mpr (h.polled_filled id hid)
  · intro i ha
    exact (p.mem_keys_emplace h.fits.new).mpr (Or.inr (h.aside_kept i ha))
  · intro i o ha hi
    rcases (hmem i o).mp hi with ⟨hlast, _⟩ | hi
    · exact absurd hlast (hother i ha)
    · exact h.aside_polled i o ha hi
  · intro id
    apply (awaited_create hnew id).trans
    rw [h.agrees id]
    constructor
    · rintro (⟨i, o, hi, ha, rfl⟩ | rfl)
      · exact ⟨i, o, (hmem i o).mpr (Or.inr hi), ha, rfl⟩
      · exact ⟨_, _, (hmem _ _).mpr (Or.inl ⟨rfl, rfl⟩), fun ha => hother _ ha rfl, rfl⟩
    · rintro ⟨i, o, hi, ha, rfl⟩
      rcases (hmem i o).mp hi with ⟨rfl, rfl⟩ | hi
      · exact Or.inr rfl
      · exact Or.inl ⟨i, o, hi, ha, rfl⟩

/-- A cancel of an open order closes it on the exchange and takes it out of the map. -/
theorem cancel (h : Tracks aside e) {index : OrderIndex} {order : TradeOrder}
    (hm : (index, order) ∈ e.orders_) (ho : e.world.is_open order.order_id) :
    Tracks aside { e with
      world := { e.world with cancels := e.world.cancels ++ [order.order_id] }.close order.order_id
      orders_ := e.orders_.erase index
      canceled := e.canceled ++ [order.order_id] } := by
  have hnot : order.order_id ∉ e.polled := fun hp =>
    Market.not_open_of_filled (h.polled_filled _ hp) ho
  have hne : aside ≠ some index := fun ha => hnot (h.aside_polled index order ha hm)
  refine ⟨h.fits.erase rfl rfl, ?_, ?_, ?_, ?_, ?_, ?_⟩
  · intro i j o o' hi hj
    exact h.one_index i j o o' (Map.mem_erase.mp hi).1 (Map.mem_erase.mp hj).1
  · intro id hid
    refine Market.filled_close.mpr ⟨h.polled_filled id hid, ?_⟩
    rintro rfl
    exact hnot hid
  · intro i ha
    refine Map.mem_keys_erase.mpr ⟨h.aside_kept i ha, ?_⟩
    rintro rfl
    exact hne ha
  · intro i o ha hi
    exact h.aside_polled i o ha (Map.mem_erase.mp hi).1
  · intro id
    apply (awaited_close e order.order_id id).trans
    rw [h.agrees id]
    constructor
    · rintro ⟨⟨i, o, hi, ha, rfl⟩, hid⟩
      refine ⟨i, o, Map.mem_erase.mpr ⟨hi, ?_⟩, ha, rfl⟩
      rintro rfl
      exact hid (congrArg TradeOrder.order_id (Map.entry_unique hi hm))
    · rintro ⟨i, o, hi, ha, rfl⟩
      obtain ⟨hi, hindex⟩ := Map.mem_erase.mp hi
      exact ⟨⟨i, o, hi, ha, rfl⟩, fun heq => hindex (h.one_index i index o order hi hm heq)⟩
  · exact congrArg (· ++ [order.order_id]) h.sent

/-- A poll that finds a filled order puts it aside. -/
theorem poll (h : Tracks none e) {index : OrderIndex} {order : TradeOrder}
    (hm : (index, order) ∈ e.orders_) (hf : e.world.is_filled order.order_id) :
    Tracks (some index) { e with polled := e.polled ++ [order.order_id] } := by
  refine ⟨h.fits, h.one_index, ?_, ?_, ?_, ?_, h.sent⟩
  · intro id hid
    rcases List.mem_append.mp hid with hid | hid
    · exact h.polled_filled id hid
    · rw [List.mem_singleton.mp hid]
      exact hf
  · intro i ha
    cases ha
    exact Map.mem_keys.mpr ⟨order, hm⟩
  · intro i o ha hi
    cases ha
    rw [Map.entry_unique hi hm]
    simp
  · intro id
    apply (awaited_polled hf id).trans
    rw [h.agrees id]
    constructor
    · rintro ⟨⟨i, o, hi, _, rfl⟩, hid⟩
      refine ⟨i, o, hi, ?_, rfl⟩
      rintro ⟨rfl⟩
      exact hid (congrArg TradeOrder.order_id (Map.entry_unique hi hm))
    · rintro ⟨i, o, hi, ha, rfl⟩
      refine ⟨⟨i, o, hi, by simp, rfl⟩, fun heq => ha ?_⟩
      exact congrArg some (h.one_index index i order o hm hi heq.symm)

/-- The entry of a reported order leaves the map. -/
theorem forget {index : OrderIndex} (h : Tracks (some index) e) :
    Tracks none { e with orders_ := e.orders_.erase index } := by
  refine ⟨h.fits.erase rfl rfl, ?_, h.polled_filled, by simp, by simp,
    fun id => (h.agrees id).trans ?_, h.sent⟩
  · intro i j o o' hi hj
    exact h.one_index i j o o' (Map.mem_erase.mp hi).1 (Map.mem_erase.mp hj).1
  · constructor
    · rintro ⟨i, o, hi, ha, rfl⟩
      refine ⟨i, o, Map.mem_erase.mpr ⟨hi, ?_⟩, by simp, rfl⟩
      rintro rfl
      exact ha rfl
    · rintro ⟨i, o, hi, _, rfl⟩
      obtain ⟨hi, hne⟩ := Map.mem_erase.mp hi
      refine ⟨i, o, hi, ?_, rfl⟩
      rintro ⟨rfl⟩
      exact hne rfl

end Tracks

end TradeEngine

/-! ## The calls of a strategy -/

namespace TradeBroker

/-- The calls that a strategy may make. Each new order gets a 64-bit id that the exchange has
not used, and a cancel names a tracked order that is open when the request arrives. -/
def Fair (m : Market) : BrokerCall → TradeEngine Exchange → Prop
  | .place _, e => m.next_id e.world.clock < 2 ^ 64 ∧ e.world.state (m.next_id e.world.clock) = none
  | .cancel index, e =>
    ∃ o ∈ e.orders_.entries, o.1 = index ∧ (m.settle e.world).is_open o.2.order_id
  | .account, _ => True

/-- Every order that is canceled has an id that 16 bits hold. -/
def Narrow : BrokerCall → TradeEngine Exchange → Prop
  | .place _, _ => True
  | .cancel index, e => ∀ o ∈ e.orders_.entries, o.1 = index → o.2.order_id < 2 ^ 16
  | .account, _ => True

section outcomes

variable (m : Market) (p : Placement OrderIndex TradeOrder) (e : TradeEngine Exchange)

theorem place_outcome (order : OrderCall) (hid : m.next_id e.world.clock < 2 ^ 64) :
    TradeBroker m.net p (.place order) e = (.ok e.last_order_index_,
        ({ e.settled m with
            world := (m.settle e.world).create (m.next_id e.world.clock) }.add_order p order
          (m.next_id e.world.clock)).2) ∨
      ¬ Market.Ready e.broker_ ∧ ∃ f, TradeBroker m.net p (.place order) e = (.error f, e) := by
  rcases Market.create_run e.broker_ e.symbol_ order hid with h | ⟨hb, f, h⟩
  · left
    simp only [TradeBroker, TradeBroker.place, TradeEngine.use, h]
    rfl
  · refine Or.inr ⟨hb, f, ?_⟩
    simp only [TradeBroker, TradeBroker.place, TradeEngine.use, h]
    rfl

theorem cancel_outcome {index : OrderIndex} {order : TradeOrder}
    (hf : e.orders_.find index = some order) (hlt : order.order_id < 2 ^ 16)
    (ho : (m.settle e.world).is_open order.order_id) :
    TradeBroker m.net p (.cancel index) e = (.ok (), { e.settled m with
        world := { m.settle e.world with
          cancels := e.world.cancels ++ [order.order_id] }.close order.order_id
        orders_ := e.orders_.erase index
        canceled := e.canceled ++ [order.order_id] }) ∨
      ¬ Market.Ready e.broker_ ∧ ∃ f, TradeBroker m.net p (.cancel index) e = (.error f, e) := by
  have hmod : order.order_id % 2 ^ 16 = order.order_id := Nat.mod_eq_of_lt hlt
  rcases Market.cancel_order_run e.broker_ e.symbol_ ho with h | ⟨hb, f, h⟩
  · left
    simp only [TradeBroker, TradeBroker.cancel, hf, hmod, TradeEngine.use, h]
    rfl
  · refine Or.inr ⟨hb, f, ?_⟩
    simp only [TradeBroker, TradeBroker.cancel, hf, hmod, TradeEngine.use, h]
    rfl

theorem account_outcome :
    (∃ a, TradeBroker m.net p .account e = (.ok a, e.settled m)) ∨
      (∃ f, f ≠ .abort ∧ TradeBroker m.net p .account e = (.error f, e.settled m)) ∨
      ¬ Market.Ready e.broker_ ∧ ∃ f, TradeBroker m.net p .account e = (.error f, e) := by
  obtain ⟨read, h | ⟨hb, f, h⟩⟩ := m.get_account_run e.broker_ e.world
  · rcases read with _ | account
    · refine Or.inr (Or.inl ⟨.exception, by decide, ?_⟩)
      simp only [TradeBroker, TradeBroker.account, TradeEngine.use, h]
      rfl
    · have hcall : TradeBroker m.net p .account e =
          (TradeBroker.to_account e.symbol_ account, e.settled m) := by
        simp only [TradeBroker, TradeBroker.account, TradeEngine.use, h]
        rfl
      rw [hcall]
      unfold TradeBroker.to_account
      split
      · exact Or.inl ⟨_, rfl⟩
      · exact Or.inr (Or.inl ⟨.undefined, by decide, rfl⟩)
  · refine Or.inr (Or.inr ⟨hb, f, ?_⟩)
    simp only [TradeBroker, TradeBroker.account, TradeEngine.use, h]
    rfl

theorem poll_outcome {order : TradeOrder} {s : OrderState}
    (hs : (m.settle e.world).state order.order_id = some s) :
    e.poll m.net order = (.ok (decide (s = .filled)), { e.settled m with
        polled := if s = .filled then e.polled ++ [order.order_id] else e.polled }) ∨
      ¬ Market.Ready e.broker_ ∧ ∃ f, e.poll m.net order = (.error f, e) := by
  rcases Market.get_order_run e.broker_ e.symbol_ hs with h | ⟨hb, f, h⟩
  · left
    unfold TradeEngine.poll TradeEngine.use
    rw [h]
    by_cases hf : s = .filled <;> simp [hf, TradeEngine.settled]
  · refine Or.inr ⟨hb, f, ?_⟩
    unfold TradeEngine.poll TradeEngine.use
    rw [h]

theorem fetch_outcome (now : ℤ) : ∃ read : Option (List Candle),
    e.use m.net (e.broker_.get_klines "BTCUSDT" "30m" (now - 1800000) now) =
        (read.elim (.error .exception) .ok, e.settled m) ∨
      ¬ Market.Ready e.broker_ ∧ ∃ f,
        e.use m.net (e.broker_.get_klines "BTCUSDT" "30m" (now - 1800000) now) =
          (.error f, e) := by
  unfold TradeEngine.use
  obtain ⟨read, h | ⟨hb, f, h⟩⟩ :=
    m.get_klines_run e.broker_ (now - 1800000) now e.world
  · exact ⟨read, Or.inl (by rw [h]; rfl)⟩
  · exact ⟨read, Or.inr ⟨hb, f, by rw [h]⟩⟩

end outcomes

/-- Every call under the conditions keeps the two stores in step. -/
theorem tracks_call {m : Market} (p : Placement OrderIndex TradeOrder)
    {aside : Option OrderIndex} (op : BrokerCall) (e : TradeEngine Exchange)
    (hc : Fair m op e ∧ Narrow op e) (h : e.Tracks aside) :
    (TradeBroker m.net p op e).2.Tracks aside := by
  obtain ⟨hfair, hnarrow⟩ := hc
  have hsettled := h.settle m
  cases op with
  | place order =>
    obtain ⟨hid, hnew⟩ := hfair
    have hnew' : (m.settle e.world).state (m.next_id e.world.clock) = none := by
      rw [Market.state_settle, hnew]
      rfl
    rcases place_outcome m p e order hid with h1 | ⟨_, f, h1⟩ <;> rw [h1]
    · exact hsettled.place p order hnew'
    · exact h
  | cancel index =>
    obtain ⟨⟨_, order⟩, hm, rfl, ho⟩ := hfair
    have hf := Map.find_of_mem hm
    rcases cancel_outcome m p e hf (hnarrow _ hm rfl) ho with h1 | ⟨_, f, h1⟩ <;> rw [h1]
    · exact hsettled.cancel hm ho
    · exact h
  | account =>
    rcases account_outcome m p e with ⟨a, h1⟩ | ⟨f, _, h1⟩ | ⟨_, f, h1⟩ <;> rw [h1]
    · exact hsettled
    · exact hsettled
    · exact h

/-- A poll puts the order aside exactly when the exchange says that it is filled. -/
theorem tracks_poll {m : Market} {e e' : TradeEngine Exchange} {index : OrderIndex}
    {order : TradeOrder} {filled : Bool} (h : e.Tracks none) (hm : (index, order) ∈ e.orders_)
    (hp : e.poll m.net order = (.ok filled, e')) :
    e'.Tracks (if filled then some index else none) := by
  have hsettled := h.settle m
  obtain ⟨s, hs⟩ := hsettled.known_state hm
  rcases poll_outcome m e hs with h1 | ⟨_, f, h1⟩ <;> rw [hp] at h1
  · obtain ⟨hfilled, rfl⟩ := Prod.mk.inj h1
    obtain rfl : filled = decide (s = .filled) := Except.ok.inj hfilled
    by_cases hf : s = .filled
    · subst hf
      simp only [decide_true, if_true]
      exact hsettled.poll hm hs
    · simp only [hf, decide_false, if_false, Bool.false_eq_true]
      exact hsettled
  · cases h1

instance (m : Market) (op : BrokerCall) (e : TradeEngine Exchange) : Decidable (Fair m op e) :=
  match op with
  | .place _ => instDecidableAnd
  | .cancel _ => List.decidableBEx _ _
  | .account => .isTrue trivial

instance (op : BrokerCall) (e : TradeEngine Exchange) : Decidable (Narrow op e) :=
  match op with
  | .place _ => .isTrue trivial
  | .cancel _ => List.decidableBAll _ _
  | .account => .isTrue trivial

end TradeBroker

/-! ## The runs -/

namespace TradeRun

variable {σ : Type}

/-- The order that is polled as filled and still in the map. -/
def aside {ν : Type} (r : TradeRun σ ν) : Option OrderIndex :=
  match r.pc with
  | .filled index => some index
  | .reported index => some index
  | _ => none

/-- The orders that are open on the exchange, and those that are filled and that no poll has
reported, are the values of the map, but for the order put aside. The cancel requests that the
exchange got name the ids that the map held for the orders that were canceled. -/
structure Tracking (r : TradeRun σ Exchange) : Prop where
  agrees : ∀ order_id,
    (r.engine.world.is_open order_id ∨
        r.engine.world.is_filled order_id ∧ order_id ∉ r.engine.polled) ↔
      ∃ i o, (i, o) ∈ r.engine.orders_ ∧ r.aside ≠ some i ∧ o.order_id = order_id
  sent : r.engine.world.cancels = r.engine.canceled

/-- What a run under the conditions keeps. -/
def InSync (r : TradeRun σ Exchange) : Prop :=
  (∀ f, r.pc ≠ .crashed f) → r.engine.Tracks r.aside

theorem in_sync_callback {m : Market} {p : Placement OrderIndex TradeOrder}
    {prog : StrategyProg σ} {pc : TradePc} {r : TradeRun σ Exchange}
    {place : Option OrderIndex} (h : r.engine.Tracks place)
    (hpc : ∀ r' : TradeRun σ Exchange, r'.pc = pc → r'.aside = place)
    (hob : Obeys (TradeBroker m.net p) (fun op e => TradeBroker.Fair m op e ∧
      TradeBroker.Narrow op e) prog r.engine) :
    (r.callback m.net p prog pc).InSync := by
  intro hlive
  obtain ⟨he, hend | ⟨f, hend⟩⟩ := callback_engine m.net p prog pc r
  · rw [hpc _ hend, he]
    exact hob.keeps (fun op e hc ht => TradeBroker.tracks_call p op e hc ht) h
  · exact absurd hend (hlive f)

theorem in_sync_step {S : IStrategy σ} {m : Market} {p : Placement OrderIndex TradeOrder}
    {r r' : TradeRun σ Exchange} {now : ℤ}
    (hstep : runs.Where (Step S m.net p) (Callbacks S m.net p fun op e =>
      TradeBroker.Fair m op e ∧ TradeBroker.Narrow op e) r now r')
    (h : r.InSync) : r'.InSync := by
  obtain ⟨hstep, hcond⟩ := hstep
  have htracks : ∀ pc, r.pc = pc → (∀ f, pc ≠ .crashed f) →
      r.engine.Tracks (aside { r with pc := pc }) := by
    rintro pc rfl hlive
    exact h hlive
  unfold Callbacks at hcond
  cases step_moves hstep with
  | start hpc => exact fun _ => htracks .idle hpc (by simp)
  | finish hpc => exact fun _ => htracks (.visit none) hpc (by simp)
  | @poll_filled index order engine hpc hf hp =>
    exact fun _ => TradeBroker.tracks_poll (htracks _ hpc (by simp)) (Map.mem_of_find hf) hp
  | @poll_open index order engine hpc hf hp =>
    exact fun _ => TradeBroker.tracks_poll (htracks _ hpc (by simp)) (Map.mem_of_find hf) hp
  | poll_failed => exact fun hlive => absurd rfl (hlive _)
  | lost => exact fun hlive => absurd rfl (hlive _)
  | @report index hpc =>
    rw [hpc] at hcond
    refine in_sync_callback (r := { r with reported := r.reported ++ [index] })
      (htracks _ hpc (by simp)) ?_ hcond
    intro r' hr'
    unfold aside
    rw [hr']
  | @forget index hpc _ => exact fun _ => (htracks _ hpc (by simp)).forget
  | @fetch candles candle engine hpc _ hu =>
    intro _
    obtain ⟨read, h1 | ⟨_, f, h1⟩⟩ := TradeBroker.fetch_outcome m r.engine now <;>
      rw [h1] at hu
    · obtain ⟨_, rfl⟩ := Prod.mk.inj hu
      exact (htracks _ hpc (by simp)).settle m
    · cases hu
  | fetch_empty => exact fun hlive => absurd rfl (hlive _)
  | fetch_failed => exact fun hlive => absurd rfl (hlive _)
  | @update candle hpc =>
    rw [hpc] at hcond
    refine in_sync_callback (htracks _ hpc (by simp)) ?_ hcond
    intro r' hr'
    unfold aside
    rw [hr']

end TradeRun

/-- In every run whose calls are fair and whose canceled orders have ids below 2^16, before and
after every callback the map holds exactly the orders that are open and those that are filled
and not yet polled as filled, and each cancel request names the id of the map. -/
theorem the_map_holds_the_awaited_orders {σ : Type} (S : IStrategy σ) (m : Market)
    (p : Placement OrderIndex TradeOrder) (symbol : String) (broker : BinanceBroker)
    (strategy : σ) (times : List ℤ) (r : TradeRun σ Exchange)
    (h : runs.Run (runs.Where (TradeRun.Step S m.net p) (TradeRun.Callbacks S m.net p
      fun op e => TradeBroker.Fair m op e ∧ TradeBroker.Narrow op e))
      (TradeRun.start symbol broker {} strategy) times r)
    (hlive : ∀ fault, r.pc ≠ .crashed fault) : r.Tracking := by
  have hsound : r.InSync := h.invariant (fun _ _ _ hstep hs => TradeRun.in_sync_step hstep hs)
    fun _ => TradeEngine.Tracks.init symbol broker
  have ht := hsound hlive
  exact ⟨ht.agrees, ht.sent⟩

/-- A market that trades all of one order before one request, and nothing else. -/
def one_trade (next_id : ℕ → ℕ) (clock order_id : ℕ) : Market where
  next_id := next_id
  trades c id := if c = clock ∧ id = order_id then .fully else .nothing
  info _ := .arr [kline_at_100]

/-- Places two orders on the first candle and cancels the second one. -/
def place_and_cancel : IStrategy Bool where
  update _ done :=
    if done then return true
    else do
      let _ ← IBroker.limit_buy_order 1 90
      let second ← IBroker.limit_sell_order 1 110
      IBroker.cancel second
      return true
  on_order_filled _ done := return done

/-- The orders 1 and 2: the second one is canceled, and the first one fills and is reported. -/
theorem the_map_holds_the_awaited_orders_of_a_pair :
    ∃ r : TradeRun Bool Exchange, r.pc = .reported 0 ∧ r.engine.world.cancels = [2] ∧
      r.Tracking := by
  have hrun : ((runs.replay
      (fun r now => r.step place_and_cancel (one_trade id 4 1).net in_front now)
      (TradeRun.Callbacks place_and_cancel (one_trade id 4 1).net in_front
        fun op e => TradeBroker.Fair (one_trade id 4 1) op e ∧ TradeBroker.Narrow op e)
      [0, 0, 0, 0, 1, 1, 1] (TradeRun.start "BTCUSDT" retry_broker {} false)).map
        fun r => (r.pc, r.engine.world.cancels)) = some (.reported 0, [2]) := by decide +kernel
  obtain ⟨r, hr, heq⟩ := Option.map_eq_some_iff.mp hrun
  obtain ⟨hpc, hsent⟩ := Prod.mk.inj heq
  exact ⟨r, hpc, hsent, the_map_holds_the_awaited_orders _ _ _ _ _ _ _ r
    (runs.run_of_replay (fun _ _ _ h => h) hr) (by simp [hpc])⟩

/-- A market that numbers the orders 5, 65541 and so on. The first two are the same in 16
bits. -/
def wide_market : Market := one_trade (fun clock => 5 + 65536 * (clock - 1)) 9 5

/-- The cancel of the order 65541 closes the order 5. The order 65541 is open, and it is no
longer in the map. -/
theorem a_cancel_leaves_an_open_order_behind :
    ∃ r : TradeRun Bool Exchange,
      runs.Run (runs.Where (TradeRun.Step place_and_cancel wide_market.net in_front)
        (TradeRun.Callbacks place_and_cancel wide_market.net in_front
          (TradeBroker.Fair wide_market)))
        (TradeRun.start "BTCUSDT" retry_broker {} false) [0, 0, 0, 0] r ∧
      r.pc = .idle ∧ r.engine.world.is_open 65541 ∧ r.engine.world.cancels = [5] ∧
      r.engine.canceled = [65541] ∧ (∀ o ∈ r.engine.orders_.entries, o.2.order_id = 5) ∧
      ¬ r.Tracking := by
  have hrun : ((runs.replay
      (fun r now => r.step place_and_cancel wide_market.net in_front now)
      (TradeRun.Callbacks place_and_cancel wide_market.net in_front
        (TradeBroker.Fair wide_market))
      [0, 0, 0, 0] (TradeRun.start "BTCUSDT" retry_broker {} false)).map
        fun r => (r.pc, decide (r.engine.world.is_open 65541), r.engine.world.cancels,
          r.engine.canceled, r.engine.orders_.entries.map fun o => o.2.order_id)) =
      some (.idle, true, [5], [65541], [5]) := by decide +kernel
  obtain ⟨r, hr, heq⟩ := Option.map_eq_some_iff.mp hrun
  simp only [Prod.mk.injEq, decide_eq_true_eq] at heq
  obtain ⟨hpc, hopen, hsent, hcanceled, hids⟩ := heq
  have horders : ∀ o ∈ r.engine.orders_.entries, o.2.order_id = 5 := by
    intro o ho
    have hmem : o.2.order_id ∈ r.engine.orders_.entries.map fun o => o.2.order_id :=
      List.mem_map_of_mem ho
    rw [hids] at hmem
    exact List.mem_singleton.mp hmem
  refine ⟨r, runs.run_of_replay (fun _ _ _ h => h) hr, hpc, hopen, hsent, hcanceled, horders, ?_⟩
  intro ht
  have h1 := ht.sent
  rw [hsent, hcanceled] at h1
  exact absurd h1 (by decide)

end wedge
