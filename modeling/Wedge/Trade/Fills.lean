-- The race between a fill and a cancel, with the grid strategy in the live
-- engine. A cancel of an order that is filled is rejected, and the retries end
-- in an abort. As long as no such cancel is sent, every fill is reported once.
import Wedge.Trade.Tracking

namespace wedge

open programs containers

namespace TradeEngine

/-- The books over all orders that the engine has placed. An order that is no longer in the map
was canceled or reported. The order `held` is reported, and its entry is still in the map. -/
structure Accounts (reported : List OrderIndex) (held : Option OrderIndex)
    (e : TradeEngine Exchange) : Prop where
  once : reported.Nodup
  count : e.issued.length = e.last_order_index_
  entry : ∀ i o, (i, o) ∈ e.orders_ → e.issued[i]? = some o.order_id
  small : ∀ i o, (i, o) ∈ e.orders_ → o.order_id < 2 ^ 16
  left : ∀ (i order_id : ℕ), e.issued[i]? = some order_id →
    i ∈ e.orders_.keys ∨ e.world.state order_id = some .canceled ∨ i ∈ reported
  reported_gone : ∀ i ∈ reported, i ∈ e.orders_.keys → held = some i
  reported_filled : ∀ i ∈ reported, ∃ order_id, e.issued[i]? = some order_id ∧
    e.world.is_filled order_id

namespace Accounts

variable {reported : List OrderIndex} {held : Option OrderIndex} {e : TradeEngine Exchange}

theorem init (symbol : String) (broker : BinanceBroker) :
    Accounts [] none { symbol_ := symbol, broker_ := broker, world := {} } := by
  have hempty : ∀ i o, (i, o) ∉ (∅ : Map OrderIndex TradeOrder) := fun _ _ => Map.not_mem_empty _
  constructor <;> simp [hempty]

theorem settle (m : Market) (h : Accounts reported held e) :
    Accounts reported held (e.settled m) := by
  refine ⟨h.once, h.count, h.entry, h.small, ?_, h.reported_gone, ?_⟩
  · intro i order_id hi
    rcases h.left i order_id hi with h1 | h1 | h1
    · exact Or.inl h1
    · exact Or.inr (Or.inl (m.settle_closed h1 rfl))
    · exact Or.inr (Or.inr h1)
  · intro i hi
    obtain ⟨order_id, h1, h2⟩ := h.reported_filled i hi
    exact ⟨order_id, h1, m.settle_closed h2 rfl⟩

theorem place (h : Accounts reported held e) (hfits : e.Fits)
    (p : Placement OrderIndex TradeOrder) (order : OrderCall) {order_id : ℕ}
    (hid : order_id < 2 ^ 16) (hnew : e.world.state order_id = none) :
    Accounts reported held
      ({ e with world := e.world.create order_id }.add_order p order order_id).2 := by
  have hold : ∀ (i id : ℕ), e.issued[i]? = some id → (e.issued ++ [order_id])[i]? = some id := by
    intro i id hi
    rw [List.getElem?_append_left (List.getElem?_eq_some_iff.mp hi).1]
    exact hi
  have hlast : (e.issued ++ [order_id])[e.last_order_index_]? = some order_id := by
    rw [← h.count]
    simp
  refine ⟨h.once, ?_, ?_, ?_, ?_, ?_, ?_⟩
  · change (e.issued ++ [order_id]).length = e.last_order_index_ + 1
    rw [List.length_append, h.count]
    rfl
  · intro i o hi
    rcases (p.mem_emplace hfits.new).mp hi with heq | hi
    · cases heq
      exact hlast
    · exact hold i _ (h.entry i o hi)
  · intro i o hi
    rcases (p.mem_emplace hfits.new).mp hi with heq | hi
    · cases heq
      exact hid
    · exact h.small i o hi
  · intro i id hi
    change (e.issued ++ [order_id])[i]? = some id at hi
    rcases Nat.lt_or_ge i e.issued.length with hlt | hge
    · rw [List.getElem?_append_left hlt] at hi
      rcases h.left i id hi with h1 | h1 | h1
      · exact Or.inl ((p.mem_keys_emplace hfits.new).mpr (Or.inr h1))
      · refine Or.inr (Or.inl ?_)
        change (e.world.create order_id).state id = _
        rw [Market.state_create _ _ _ hnew, if_neg ?_]
        · exact h1
        · rintro rfl
          rw [hnew] at h1
          cases h1
      · exact Or.inr (Or.inr h1)
    · have hlt := (List.getElem?_eq_some_iff.mp hi).1
      rw [List.length_append, List.length_singleton] at hlt
      have hieq : i = e.last_order_index_ := (by omega : i = e.issued.length).trans h.count
      exact Or.inl ((p.mem_keys_emplace hfits.new).mpr (Or.inl hieq))
  · intro i hi hk
    rcases (p.mem_keys_emplace hfits.new).mp hk with rfl | hk
    · obtain ⟨id, hid', _⟩ := h.reported_filled _ hi
      have hlt := (List.getElem?_eq_some_iff.mp hid').1
      rw [h.count] at hlt
      exact absurd hlt (Nat.lt_irrefl _)
    · exact h.reported_gone i hi hk
  · intro i hi
    obtain ⟨id, h1, h2⟩ := h.reported_filled i hi
    exact ⟨id, hold i id h1, (Market.filled_create hnew).mpr h2⟩

theorem cancel (h : Accounts reported held e) {index : OrderIndex} {order : TradeOrder}
    (hm : (index, order) ∈ e.orders_) (ho : e.world.is_open order.order_id) :
    Accounts reported held { e with
      world := { e.world with cancels := e.world.cancels ++ [order.order_id] }.close order.order_id
      orders_ := e.orders_.erase index
      canceled := e.canceled ++ [order.order_id] } := by
  refine ⟨h.once, h.count, ?_, ?_, ?_, ?_, ?_⟩
  · intro i o hi
    exact h.entry i o (Map.mem_erase.mp hi).1
  · intro i o hi
    exact h.small i o (Map.mem_erase.mp hi).1
  · intro i id hi
    have hclose : ∀ s, e.world.state id = some s → s = .canceled ∨ id = order.order_id →
        (e.world.close order.order_id).state id = some .canceled := by
      intro s hs hor
      rw [Market.state_close, hs, Option.map_some]
      rcases hor with rfl | heq
      · split <;> rfl
      · rw [if_pos heq]
    by_cases heq : i = index
    · subst heq
      have h1 : order.order_id = id := Option.some.inj ((h.entry i order hm).symm.trans hi)
      obtain ⟨s, hs, _⟩ := ho
      exact Or.inr (Or.inl (hclose s (h1 ▸ hs) (Or.inr h1.symm)))
    · rcases h.left i id hi with h1 | h1 | h1
      · exact Or.inl (Map.mem_keys_erase.mpr ⟨h1, heq⟩)
      · exact Or.inr (Or.inl (hclose _ h1 (Or.inl rfl)))
      · exact Or.inr (Or.inr h1)
  · intro i hi hk
    exact h.reported_gone i hi (Map.mem_keys_erase.mp hk).1
  · intro i hi
    obtain ⟨id, h1, h2⟩ := h.reported_filled i hi
    refine ⟨id, h1, Market.filled_close.mpr ⟨h2, ?_⟩⟩
    rintro rfl
    exact Market.not_open_of_filled h2 ho

/-- A callback is called for a filled order of the map. -/
theorem report (h : Accounts reported none e) {index : OrderIndex} {order : TradeOrder}
    (hm : (index, order) ∈ e.orders_) (hf : e.world.is_filled order.order_id) :
    Accounts (reported ++ [index]) (some index) e := by
  have hnew : index ∉ reported := fun hi =>
    nomatch h.reported_gone index hi (Map.mem_keys.mpr ⟨order, hm⟩)
  refine ⟨?_, h.count, h.entry, h.small, ?_, ?_, ?_⟩
  · refine List.nodup_append.mpr ⟨h.once, List.nodup_singleton index, ?_⟩
    rintro i hi j hj rfl
    exact hnew (List.mem_singleton.mp hj ▸ hi)
  · intro i id hi
    rcases h.left i id hi with h1 | h1 | h1
    · exact Or.inl h1
    · exact Or.inr (Or.inl h1)
    · exact Or.inr (Or.inr (List.mem_append_left _ h1))
  · intro i hi hk
    rcases List.mem_append.mp hi with hi | hi
    · exact nomatch h.reported_gone i hi hk
    · rw [List.mem_singleton.mp hi]
  · intro i hi
    rcases List.mem_append.mp hi with hi | hi
    · exact h.reported_filled i hi
    · rw [List.mem_singleton.mp hi]
      exact ⟨order.order_id, h.entry index order hm, hf⟩

theorem forget {index : OrderIndex} (h : Accounts reported (some index) e)
    (hr : index ∈ reported) :
    Accounts reported none { e with orders_ := e.orders_.erase index } := by
  refine ⟨h.once, h.count, ?_, ?_, ?_, ?_, h.reported_filled⟩
  · intro i o hi
    exact h.entry i o (Map.mem_erase.mp hi).1
  · intro i o hi
    exact h.small i o (Map.mem_erase.mp hi).1
  · intro i id hi
    by_cases heq : i = index
    · exact Or.inr (Or.inr (heq ▸ hr))
    · rcases h.left i id hi with h1 | h1
      · exact Or.inl (Map.mem_keys_erase.mpr ⟨h1, heq⟩)
      · exact Or.inr h1
  · intro i hi hk
    obtain ⟨hk, hne⟩ := Map.mem_keys_erase.mp hk
    exact absurd (Option.some.inj (h.reported_gone i hi hk)).symm hne

end Accounts

/-- The engine of a run without a race: the client is ready, the two stores are in step, and
the books are in order. -/
structure Live (reported : List OrderIndex) (aside held : Option OrderIndex)
    (e : TradeEngine Exchange) : Prop where
  ready : Market.Ready e.broker_
  tracks : e.Tracks aside
  accounts : e.Accounts reported held

theorem Live.settle {reported : List OrderIndex} {aside held : Option OrderIndex}
    {e : TradeEngine Exchange} (m : Market) (h : e.Live reported aside held) :
    (e.settled m).Live reported aside held :=
  ⟨h.ready, h.tracks.settle m, h.accounts.settle m⟩

/-- A poll of a ready client gets its answer. -/
theorem Live.poll {reported : List OrderIndex} {e e' : TradeEngine Exchange} {m : Market}
    {index : OrderIndex} {order : TradeOrder} {res : Except Fault Bool}
    (h : e.Live reported none none) (hm : (index, order) ∈ e.orders_)
    (hp : e.poll m.net order = (res, e')) :
    ∃ filled, res = .ok filled ∧ e'.tracked = e.tracked ∧
      e'.Live reported (if filled then some index else none) none := by
  have hs := h.settle m
  obtain ⟨s, hstate⟩ := hs.tracks.known_state hm
  rcases TradeBroker.poll_outcome m e hstate with h1 | ⟨hb, _⟩
  · rw [hp] at h1
    cases h1
    refine ⟨decide (s = .filled), rfl, rfl, h.ready, TradeBroker.tracks_poll h.tracks hm hp, ?_⟩
    have ha := hs.accounts
    exact ⟨ha.once, ha.count, ha.entry, ha.small, ha.left, ha.reported_gone, ha.reported_filled⟩
  · exact absurd h.ready hb

/-- The order that is put aside is in the map, and it is filled. -/
theorem Tracks.aside_filled {e : TradeEngine Exchange} {index : OrderIndex}
    (h : e.Tracks (some index)) :
    ∃ order, (index, order) ∈ e.orders_ ∧ e.world.is_filled order.order_id := by
  obtain ⟨order, hm⟩ := Map.mem_keys.mp (h.aside_kept index rfl)
  exact ⟨order, hm, h.polled_filled _ (h.aside_polled index order rfl hm)⟩

/-- The calls of the request for candles leave everything in order. -/
theorem Live.fetch {reported : List OrderIndex} {aside held : Option OrderIndex}
    {e e' : TradeEngine Exchange} {m : Market} {now : ℤ} {res : Except Fault (List Candle)}
    (h : e.Live reported aside held)
    (hu : e.use m.net (e.broker_.get_klines "BTCUSDT" "30m" (now - 1800000) now) = (res, e')) :
    e' = e.settled m ∧ res ≠ .error .abort := by
  obtain ⟨read, h1 | ⟨hb, _⟩⟩ := TradeBroker.fetch_outcome m e now
  · rw [hu] at h1
    cases h1
    refine ⟨rfl, fun hf => ?_⟩
    cases Market.read_error hf
  · exact absurd h.ready hb

end TradeEngine

/-! ## The calls of the grid strategy -/

namespace TradeBroker

/-- Each new order gets an id below 2^16 that the exchange has not used. -/
def SmallIds (m : Market) : BrokerCall → TradeEngine Exchange → Prop
  | .place _, e => m.next_id e.world.clock < 2 ^ 16 ∧ e.world.state (m.next_id e.world.clock) = none
  | .cancel _, _ => True
  | .account, _ => True

/-- Every order that is canceled is still open when the request arrives. -/
def StillOpen (m : Market) : BrokerCall → TradeEngine Exchange → Prop
  | .place _, _ => True
  | .cancel index, e =>
    ∀ o ∈ e.orders_.entries, o.1 = index → (m.settle e.world).is_open o.2.order_id
  | .account, _ => True

instance (m : Market) (op : BrokerCall) (e : TradeEngine Exchange) :
    Decidable (SmallIds m op e) :=
  match op with
  | .place _ => instDecidableAnd
  | .cancel _ => .isTrue trivial
  | .account => .isTrue trivial

instance (m : Market) (op : BrokerCall) (e : TradeEngine Exchange) :
    Decidable (StillOpen m op e) :=
  match op with
  | .place _ => .isTrue trivial
  | .cancel _ => List.decidableBAll _ _
  | .account => .isTrue trivial

/-- Without a race, the live broker in front of the exchange keeps everything in order, and the
only calls that fail are the ones for the account. -/
theorem live_tracker (m : Market) (p : Placement OrderIndex TradeOrder)
    (reported : List OrderIndex) (held : Option OrderIndex) :
    Tracker (TradeBroker m.net p) TradeEngine.tracked (TradeEngine.Live reported held held)
      (fun op e => SmallIds m op e ∧ StillOpen m op e)
      (fun fault e => fault ≠ .abort ∧ e.Live reported held held) 0 held where
  place order e h hr := by
    obtain ⟨hid, hnew⟩ := hr.1
    have hnew' : (m.settle e.world).state (m.next_id e.world.clock) = none := by
      rw [Market.state_settle, hnew]
      rfl
    have hs := h.settle m
    rcases place_outcome m p e order (hid.trans (by decide)) with h1 | ⟨hb, _⟩
    · refine Or.inl ⟨_, _, h1, ⟨h.ready, hs.tracks.place p order hnew',
        hs.accounts.place hs.tracks.fits p order hid hnew'⟩, Nat.zero_le _,
        TradeEngine.Fits.tracked_perm p order _ hs.tracks.fits⟩
    · exact absurd h.ready hb
  cancel i e h hg hr := by
    have hi : i ∈ e.orders_.keys := e.keys_tracked ▸ hg.1
    obtain ⟨order, hf⟩ := Map.find_of_mem_keys hi
    have hm := Map.mem_of_find hf
    have ho := hr.2 _ hm rfl
    have hs := h.settle m
    rcases cancel_outcome m p e hf (h.accounts.small i order hm) ho with h1 | ⟨hb, _⟩
    · exact Or.inl ⟨_, h1, ⟨h.ready, hs.tracks.cancel hm ho, hs.accounts.cancel hm ho⟩,
        e.tracked_erase i⟩
    · exact absurd h.ready hb
  account e h _ := by
    rcases account_outcome m p e with ⟨a, h1⟩ | ⟨f, hf, h1⟩ | ⟨hb, _⟩
    · exact Or.inl ⟨a, _, h1, h.settle m, rfl⟩
    · exact Or.inr ⟨f, _, h1, hf, h.settle m⟩
    · exact absurd h.ready hb

end TradeBroker

/-! ## The runs -/

namespace TradeRun

/-- What holds at each place of a run without a race. -/
def RaceFree (r : TradeRun GridStrategy Exchange) : Prop :=
  match r.pc with
  | .filled k => InStep (TradeEngine.Live r.reported (some k) none) TradeEngine.tracked none
      r.strategy r.engine
  | .reported k => k ∈ r.reported ∧ ∃ x : Slot, x.1 = k ∧
      InStep (TradeEngine.Live r.reported (some k) (some k)) TradeEngine.tracked (some x)
        r.strategy r.engine
  | .crashed fault => fault ≠ .abort ∧ ∃ held, r.engine.Accounts r.reported held
  | _ => InStep (TradeEngine.Live r.reported none none) TradeEngine.tracked none r.strategy r.engine

theorem race_free_step {to_float : ℚ → ℚ} {m : Market} {p : Placement OrderIndex TradeOrder}
    {r r' : TradeRun GridStrategy Exchange} {now : ℤ}
    (hstep : runs.Where (Step (grid_strategy to_float) m.net p)
      (Callbacks (grid_strategy to_float) m.net p fun op e =>
        TradeBroker.SmallIds m op e ∧ TradeBroker.StillOpen m op e) r now r')
    (h : r.RaceFree) : r'.RaceFree := by
  obtain ⟨hstep, hcond⟩ := hstep
  unfold RaceFree at h
  unfold Callbacks at hcond
  cases step_moves hstep with
  | start hpc =>
    rw [hpc] at h
    exact h
  | finish hpc =>
    rw [hpc] at h
    exact h
  | @poll_filled index order engine hpc hf hp =>
    rw [hpc] at h
    obtain ⟨filled, hres, ht, hlive⟩ := h.inv.poll (Map.mem_of_find hf) hp
    cases hres
    exact ⟨hlive, ht ▸ h.coupled⟩
  | @poll_open index order engine hpc hf hp =>
    rw [hpc] at h
    obtain ⟨filled, hres, ht, hlive⟩ := h.inv.poll (Map.mem_of_find hf) hp
    cases hres
    exact ⟨hlive, ht ▸ h.coupled⟩
  | @poll_failed index order engine fault hpc hf hp =>
    rw [hpc] at h
    obtain ⟨_, hres, _⟩ := h.inv.poll (Map.mem_of_find hf) hp
    cases hres
  | @lost index hpc hk =>
    refine ⟨(by decide : Fault.undefined ≠ .abort), ?_⟩
    rcases hpc with hpc | hpc <;> rw [hpc] at h
    · exact ⟨_, h.inv.accounts⟩
    · obtain ⟨_, x, _, hs⟩ := h
      exact ⟨_, hs.inv.accounts⟩
  | @report index hpc =>
    rw [hpc] at h hcond
    obtain ⟨order, hm, hfilled⟩ := h.inv.tracks.aside_filled
    have h1 : InStep (TradeEngine.Live (r.reported ++ [index]) (some index) (some index))
        TradeEngine.tracked none r.strategy r.engine :=
      h.mono fun hl => ⟨hl.ready, hl.tracks, hl.accounts.report hm hfilled⟩
    have hk : index ∈ r.engine.tracked.keys := by
      rw [TradeEngine.keys_tracked]
      exact Map.mem_keys.mpr ⟨order, hm⟩
    apply callback_rule (r := { r with reported := r.reported ++ [index] })
      (on_order_filled_safe (TradeBroker.live_tracker m p (r.reported ++ [index]) (some index))
        to_float h1 hk) hcond
    · rintro g e ⟨x, hx, hpost, _⟩
      exact ⟨List.mem_append_right _ List.mem_cons_self, x, hx, hpost⟩
    · rintro f e ⟨hf, hlive⟩
      exact ⟨hf, _, hlive.accounts⟩
  | @forget index hpc _ =>
    rw [hpc] at h
    obtain ⟨hk, x, rfl, hs⟩ := h
    refine ⟨⟨hs.inv.ready, hs.inv.tracks.forget, hs.inv.accounts.forget hk⟩, ?_⟩
    have hrelease := hs.coupled.release
    rw [← TradeEngine.tracked_erase] at hrelease
    exact hrelease
  | fetch hpc _ hu =>
    rw [hpc] at h
    obtain ⟨rfl, _⟩ := h.inv.fetch hu
    exact ⟨h.inv.settle m, h.coupled⟩
  | fetch_empty hpc hu =>
    rw [hpc] at h
    obtain ⟨rfl, _⟩ := h.inv.fetch hu
    exact ⟨(by decide : Fault.undefined ≠ .abort), _, (h.inv.settle m).accounts⟩
  | fetch_failed hpc hu =>
    rw [hpc] at h
    obtain ⟨rfl, hres⟩ := h.inv.fetch hu
    exact ⟨fun hf => hres (congrArg Except.error hf), _, (h.inv.settle m).accounts⟩
  | @update candle hpc =>
    rw [hpc] at h hcond
    apply callback_rule (update_safe (TradeBroker.live_tracker m p r.reported none) candle h) hcond
    · intro g e hpost
      exact hpost
    · rintro f e ⟨hf, hlive⟩
      exact ⟨hf, _, hlive.accounts⟩

/-- Every order is reported at most once and only when it is filled, and a filled order whose
entry has left the map was reported. -/
structure ReportedOnce {σ : Type} (r : TradeRun σ Exchange) : Prop where
  at_most_once : ∀ i, r.reported.count i ≤ 1
  only_filled : ∀ i ∈ r.reported, ∃ order_id, r.engine.issued[i]? = some order_id ∧
    r.engine.world.is_filled order_id
  before_it_leaves : ∀ i order_id : ℕ, r.engine.issued[i]? = some order_id →
    r.engine.world.is_filled order_id → i ∉ r.engine.orders_.keys → r.reported.count i = 1

theorem reported_once {r : TradeRun GridStrategy Exchange} {held : Option OrderIndex}
    (h : r.engine.Accounts r.reported held) : r.ReportedOnce := by
  refine ⟨List.nodup_iff_count_le_one.mp h.once, h.reported_filled, ?_⟩
  intro i order_id hi hf hk
  rcases h.left i order_id hi with h1 | h1 | h1
  · exact absurd h1 hk
  · rw [hf] at h1
    cases h1
  · exact List.count_eq_one_of_mem h.once h1

theorem RaceFree.outcome {r : TradeRun GridStrategy Exchange} (h : r.RaceFree) :
    r.pc ≠ .crashed .abort ∧ r.ReportedOnce := by
  unfold RaceFree at h
  rcases hpc : r.pc with _ | it | k | k | _ | candle | f <;> rw [hpc] at h
  · exact ⟨by simp, reported_once h.inv.accounts⟩
  · exact ⟨by simp, reported_once h.inv.accounts⟩
  · exact ⟨by simp, reported_once h.inv.accounts⟩
  · obtain ⟨_, x, _, hs⟩ := h
    exact ⟨by simp, reported_once hs.inv.accounts⟩
  · exact ⟨by simp, reported_once h.inv.accounts⟩
  · exact ⟨by simp, reported_once h.inv.accounts⟩
  · obtain ⟨hf, held, ha⟩ := h
    exact ⟨by simpa using hf, reported_once ha⟩

end TradeRun

/-- In every run in which each order that the strategy cancels is still open when the request
arrives, the process does not abort, and every order that fills is reported exactly once before
its entry leaves the map. -/
theorem fills_are_reported_once_without_a_race (to_float : ℚ → ℚ) (json : StrategyConfig)
    (volume : ℚ) (m : Market) (p : Placement OrderIndex TradeOrder) (symbol : String)
    (broker : BinanceBroker) (hready : Market.Ready broker) (times : List ℤ)
    (r : TradeRun GridStrategy Exchange)
    (h : runs.Run (runs.Where (TradeRun.Step (grid_strategy to_float) m.net p)
      (TradeRun.Callbacks (grid_strategy to_float) m.net p
        fun op e => TradeBroker.SmallIds m op e ∧ TradeBroker.StillOpen m op e))
      (TradeRun.start symbol broker {} (GridStrategy.start volume json)) times r) :
    r.pc ≠ .crashed .abort ∧ r.ReportedOnce := by
  have hstart : (TradeRun.start symbol broker ({} : Exchange)
      (GridStrategy.start volume json)).RaceFree :=
    ⟨⟨hready, .init symbol broker, .init symbol broker⟩, Coupled.start volume json⟩
  exact (h.invariant (fun _ _ _ hstep hs => TradeRun.race_free_step hstep hs) hstart).outcome

/-- A market in which the first order fills, and later the second buy order, before the sell
order does. -/
def calm_market : Market :=
  grid_market fun clock order_id =>
    if clock = 3 ∧ order_id = 2 ∨ clock = 7 ∧ order_id = 5 then .fully else .nothing

/-- Two fills and one cancel of the order on the other side. -/
theorem two_fills_are_reported_once :
    ∃ r : TradeRun GridStrategy Exchange, r.pc = .reported 2 ∧ r.reported = [0, 2] ∧
      r.engine.canceled = [4] ∧ r.pc ≠ .crashed .abort ∧ r.ReportedOnce := by
  have hrun : ((runs.replay (fun r now => r.step (grid_strategy id) calm_market.net in_front now)
      (TradeRun.Callbacks (grid_strategy id) calm_market.net in_front
        fun op e => TradeBroker.SmallIds calm_market op e ∧ TradeBroker.StillOpen calm_market op e)
      (List.replicate 14 0) (TradeRun.start "BTCUSDT" retry_broker {}
        (GridStrategy.start 0 warm_config))).map
        fun r => (r.pc, r.reported, r.engine.canceled)) = some (.reported 2, [0, 2], [4]) := by
    decide +kernel
  obtain ⟨r, hr, heq⟩ := Option.map_eq_some_iff.mp hrun
  simp only [Prod.mk.injEq] at heq
  obtain ⟨hpc, hreported, hcanceled⟩ := heq
  exact ⟨r, hpc, hreported, hcanceled, fills_are_reported_once_without_a_race id warm_config 0
    calm_market in_front "BTCUSDT" retry_broker ⟨rfl, by decide⟩ _ r
    (runs.run_of_replay (fun _ _ _ h => h) hr)⟩

/-- Both orders of the grid fill between two polls. The callback of the first one cancels the
second one, and the process aborts. -/
theorem a_race_aborts_the_process :
    ∃ r : TradeRun GridStrategy Exchange,
      runs.Run (runs.Where
        (TradeRun.Step (grid_strategy id) (grid_market fun _ _ => .fully).net in_front)
        (TradeRun.Callbacks (grid_strategy id) (grid_market fun _ _ => .fully).net in_front
          (TradeBroker.SmallIds (grid_market fun _ _ => .fully))))
        (TradeRun.start "BTCUSDT" retry_broker {} (GridStrategy.start 0 warm_config))
        (List.replicate 14 0) r ∧
      Market.Ready retry_broker ∧ r.pc = .crashed .abort ∧
      r.engine.world.is_filled 4 ∧ r.engine.issued[1]? = some 4 ∧ r.reported = [0, 2] := by
  have hrun : ((runs.replay (fun r now => r.step (grid_strategy id)
        (grid_market fun _ _ => .fully).net in_front now)
      (TradeRun.Callbacks (grid_strategy id) (grid_market fun _ _ => .fully).net in_front
        (TradeBroker.SmallIds (grid_market fun _ _ => .fully)))
      (List.replicate 14 0) (TradeRun.start "BTCUSDT" retry_broker {}
        (GridStrategy.start 0 warm_config))).map
        fun r => (r.pc, decide (r.engine.world.is_filled 4), r.engine.issued[1]?, r.reported)) =
      some (.crashed .abort, true, some 4, [0, 2]) := by
    decide +kernel
  obtain ⟨r, hr, heq⟩ := Option.map_eq_some_iff.mp hrun
  simp only [Prod.mk.injEq, decide_eq_true_eq] at heq
  obtain ⟨hpc, hfilled, hissued, hreported⟩ := heq
  exact ⟨r, runs.run_of_replay (fun _ _ _ h => h) hr, ⟨rfl, by decide⟩, hpc, hfilled, hissued,
    hreported⟩

end wedge
